import CppPaxos.Library.Smoothing
import CppPaxos.NetworkSteps
import Mathlib.Data.List.DropRight

/-!
# The record of a peer

The entries of the peers do not depend on each other: an entry is a register that follows
what happens to its UID. Its address is the first one named for the UID since the entry
was last removed. Its round trip time starts as whatever was in memory, and forgets that.
-/

namespace CppPaxos

open Machines Tables

/-- What happens to the entry of one UID. -/
inductive PeerEvent
  | named (addr : PeerAddr) (rtt : UInt64)
  | sampled (rtt : UInt64)
  | removed
  deriving DecidableEq

namespace PeerEvent

/-- The entry of a UID, after an event. The first address stays. -/
def record (uid : Str) (entry : Option PeerInfo) : PeerEvent → Option PeerInfo
  | named addr rtt => entry.or (some ⟨uid, addr, rtt⟩)
  | sampled rtt => entry.map fun peer => { peer with rtt := (peer.rtt * 3 + rtt) / 4 }
  | removed => none

/-- The address that is named. -/
def addr? : PeerEvent → Option PeerAddr
  | named addr _ => some addr
  | _ => none

/-- The round trip time that is measured. -/
def sample? : PeerEvent → Option UInt64
  | sampled rtt => some rtt
  | _ => none

def isRemoved : PeerEvent → Bool
  | removed => true
  | _ => false

variable {uid : Str}

/-- The address on record is the first one named since the last removal. -/
theorem addr_foldl_record (events : List PeerEvent) :
    (events.foldl (record uid) none).map PeerInfo.addr =
      (events.rtakeWhile fun event => !event.isRemoved).findSome? addr? := by
  induction events using List.reverseRecOn with
  | nil => rfl
  | append_singleton events event ih =>
    rw [List.foldl_append, List.foldl_cons, List.foldl_nil]
    cases event with
    | removed => rw [List.rtakeWhile_concat_neg _ _ _ (by simp [isRemoved])]; rfl
    | sampled rtt =>
      rw [List.rtakeWhile_concat_pos _ _ _ (by simp [isRemoved]), List.findSome?_append, ← ih]
      cases events.foldl (record uid) none <;> rfl
    | named addr rtt =>
      rw [List.rtakeWhile_concat_pos _ _ _ (by simp [isRemoved]), List.findSome?_append, ← ih]
      cases events.foldl (record uid) none <;> rfl

/-- An entry that is not removed keeps its address and takes in the round trip times. -/
theorem foldl_record_some {events : List PeerEvent} (h : removed ∉ events) (peer : PeerInfo) :
    events.foldl (record uid) (some peer) =
      some { peer with
        rtt := (events.filterMap sample?).foldl (fun rtt sample => (rtt * 3 + sample) / 4)
          peer.rtt } := by
  induction events generalizing peer with
  | nil => rfl
  | cons event events ih =>
    obtain ⟨hevent, hrest⟩ := not_or.mp (mt List.mem_cons.mpr h)
    cases event with
    | removed => exact absurd rfl hevent
    | named addr rtt => exact ih hrest peer
    | sampled rtt => exact ih hrest _

/-- Unless it is removed, there is an entry afterwards if there was one or an address is named. -/
theorem isSome_foldl_record {events : List PeerEvent} (h : removed ∉ events)
    (entry : Option PeerInfo) :
    (events.foldl (record uid) entry).isSome ↔
      entry.isSome ∨ ∃ event ∈ events, event.addr?.isSome := by
  induction events generalizing entry with
  | nil => simp
  | cons event events ih =>
    obtain ⟨hevent, hrest⟩ := not_or.mp (mt List.mem_cons.mpr h)
    rw [List.foldl_cons, ih hrest, List.exists_mem_cons_iff, ← or_assoc]
    refine or_congr ?_ Iff.rfl
    cases event with
    | removed => exact absurd rfl hevent
    | named addr rtt => simp [record, addr?]
    | sampled rtt => simp [record, addr?]

end PeerEvent

/-- The round trip time that `HandlePongMessage` measures. -/
def PongMessage.roundTrip (m : PongMessage) (now : UInt64) : UInt64 :=
  if now > m.timestamp then now - m.timestamp else 0

/-- The server `myUID` may have an entry for `uid`: it is not empty and not its own. -/
def IsPeerUID (myUID uid : Str) : Prop := uid ≠ [] ∧ uid ≠ myUID

instance (myUID uid : Str) : Decidable (IsPeerUID myUID uid) :=
  inferInstanceAs (Decidable (_ ∧ _))

/-- What happens to the entry of a UID when `AddPeerInfo` is called for each peer of a list. -/
def namedEvents (myUID uid : Str) (rtt : ℕ → UInt64) : List PeerInfo → List PeerEvent
  | [] => []
  | peer :: rest =>
    (if peer.id = uid ∧ IsPeerUID myUID uid then [.named peer.addr (rtt 0)] else []) ++
      namedEvents myUID uid (fun i => rtt (i + 1)) rest

/-- What happens to the entry of a UID in a call on the server `myUID`. -/
def NetworkCall.peerEvents (myUID uid : Str) : NetworkCall → List PeerEvent
  | .addPeerInfo peerId addr rtt =>
    if peerId = uid ∧ IsPeerUID myUID uid then [.named addr rtt] else []
  | .updatePeerInfo peerId rtt => if peerId = uid then [.sampled rtt] else []
  | .removePeerInfo peerId => if peerId = uid then [.removed] else []
  | .handlePingMessage m _ rtt => namedEvents myUID uid rtt (m.myInfo :: m.peers.entries)
  | .handlePongMessage m now => if m.myInfo.id = uid then [.sampled (m.roundTrip now)] else []
  | _ => []

namespace ServerNetwork

section Entries

variable (S : ServerNetwork) {uid : Str}

/-- No call but `Init` changes who and where the server is. -/
theorem getMyNodeInfo_next {call : NetworkCall}
    (h : ∀ type localIP localPort dstIP dstPort,
      call ≠ .init type localIP localPort dstIP dstPort) :
    (machine.next S call).getMyNodeInfo = S.getMyNodeInfo := by
  cases hsending : S.sending call with
  | some d =>
    rw [Machine.next, step_of_sending hsending, sendMessageToEach_eq]
    rcases start_of_sending hsending with hstart | hstart <;> rw [hstart] <;> rfl
  | none =>
    cases call with
    | init => exact absurd rfl (h _ _ _ _ _)
    | removePeerInfo => rfl
    | addPeerInfo peerId addr rtt =>
      change (S.addPeerInfo peerId addr rtt).1.getMyNodeInfo = _
      rw [addPeerInfo_eq]
      rfl
    | updatePeerInfo peerId rtt =>
      change (S.updatePeerInfo peerId rtt).getMyNodeInfo = _
      rw [updatePeerInfo_eq]
      rfl
    | handlePingMessage m s rtt =>
      change (S.addPeers rtt _).getMyNodeInfo = _
      rw [addPeers_eq]
      rfl
    | handlePongMessage m now =>
      change (S.updatePeerInfo _ _).getMyNodeInfo = _
      rw [updatePeerInfo_eq]
      rfl
    | handleClose s =>
      change (S.handleClose s).getMyNodeInfo = _
      unfold handleClose
      split <;> rfl
    | _ => cases hsending

/-- No call changes the UID of the server. -/
theorem myUID_next (call : NetworkCall) : (machine.next S call).myUID = S.myUID := by
  by_cases hinit : ∃ type localIP localPort dstIP dstPort,
      call = .init type localIP localPort dstIP dstPort
  · obtain ⟨type, localIP, localPort, dstIP, dstPort, rfl⟩ := hinit
    rfl
  · push Not at hinit
    exact congrArg PeerInfo.id (S.getMyNodeInfo_next hinit)

/-- `AddPeerInfo` names an address for a UID for which the server may have an entry. -/
theorem get?_addPeerInfo (peerId : Str) (addr : PeerAddr) (rtt : UInt64) :
    Map.get? (S.addPeerInfo peerId addr rtt).1.peers uid =
      (if peerId = uid ∧ IsPeerUID S.myUID uid then [PeerEvent.named addr rtt] else []).foldl
        (PeerEvent.record uid) (Map.get? S.peers uid) := by
  rcases S.addPeerInfo_cases peerId addr rtt with ⟨hignored, hsame⟩ | ⟨hne, hother, hnone, heq⟩
  · by_cases hnamed : peerId = uid ∧ IsPeerUID S.myUID uid
    · obtain ⟨rfl, hne, hother⟩ := hnamed
      obtain ⟨peer, hfound⟩ := Option.isSome_iff_exists.mp
        ((hignored.resolve_left hne).resolve_left hother)
      rw [hsame, hfound, if_pos ⟨rfl, hne, hother⟩]
      rfl
    · rw [hsame, if_neg hnamed]
      rfl
  · rw [heq]
    change Map.get? (S.peers.assign _) uid = _
    rw [Map.get?_assign]
    by_cases huid : peerId = uid
    · subst huid
      rw [if_pos rfl, if_pos ⟨rfl, hne, hother⟩, hnone]
      rfl
    · rw [if_neg huid, if_neg fun hnamed => huid hnamed.1]
      rfl

/-- A received ping names an address for each of its peers. -/
theorem get?_addPeers (peers : List PeerInfo) : ∀ (S : ServerNetwork) (rtt : ℕ → UInt64),
    Map.get? (S.addPeers rtt peers).peers uid =
      (namedEvents S.myUID uid rtt peers).foldl (PeerEvent.record uid) (Map.get? S.peers uid) := by
  induction peers with
  | nil => exact fun S rtt => rfl
  | cons peer rest ih =>
    intro S rtt
    have hmine : (S.addPeerInfo peer.id peer.addr (rtt 0)).1.myUID = S.myUID := by
      rw [addPeerInfo_eq]
    rw [addPeers, ih, hmine, get?_addPeerInfo, namedEvents, List.foldl_append]

/-- `UpdatePeerInfo` adds a round trip time to the entry of a known UID. -/
theorem get?_updatePeerInfo (peerId : Str) (rtt : UInt64) :
    Map.get? (S.updatePeerInfo peerId rtt).peers uid =
      (if peerId = uid then [PeerEvent.sampled rtt] else []).foldl (PeerEvent.record uid)
        (Map.get? S.peers uid) := by
  unfold updatePeerInfo
  by_cases huid : peerId = uid
  · subst huid
    rw [if_pos rfl]
    cases hfound : Map.get? S.peers peerId with
    | none => exact hfound
    | some peer =>
      change Map.get? (S.peers.assign _) peerId = _
      rw [Map.get?_assign, if_pos rfl]
      rfl
  · rw [if_neg huid]
    cases hfound : Map.get? S.peers peerId with
    | none => rfl
    | some peer =>
      change Map.get? (S.peers.assign _) uid = _
      rw [Map.get?_assign, if_neg huid]
      rfl

variable {S} {peerId : Str} {addr : PeerAddr} {rtt : UInt64} {entry : PeerInfo}

/-- An entry after `AddPeerInfo` is an old one, or new with the UID and the address of the call. -/
theorem get?_or_of_get?_addPeerInfo
    (h : Map.get? (S.addPeerInfo peerId addr rtt).1.peers uid = some entry) :
    Map.get? S.peers uid = some entry ∨
      peerId = uid ∧ IsPeerUID S.myUID uid ∧ entry.addr = addr := by
  rw [get?_addPeerInfo] at h
  split at h
  · next hnamed =>
    cases hold : Map.get? S.peers uid with
    | some old =>
      rw [hold] at h
      exact Or.inl h
    | none =>
      rw [hold] at h
      cases h
      exact Or.inr ⟨hnamed.1, hnamed.2, rfl⟩
  · exact Or.inl h

/-- An entry after `UpdatePeerInfo` is an old one, up to the round trip time. -/
theorem exists_of_get?_updatePeerInfo
    (h : Map.get? (S.updatePeerInfo peerId rtt).peers uid = some entry) :
    ∃ old, Map.get? S.peers uid = some old ∧ entry.addr = old.addr := by
  rw [get?_updatePeerInfo] at h
  split at h
  · obtain ⟨old, hold, rfl⟩ := Option.map_eq_some_iff.mp h
    exact ⟨old, hold, rfl⟩
  · exact ⟨entry, h, rfl⟩

variable (S)

/-- A call does to an entry what happens to its UID. -/
theorem get?_next (call : NetworkCall) :
    Map.get? (machine.next S call).peers uid =
      (call.peerEvents S.myUID uid).foldl (PeerEvent.record uid) (Map.get? S.peers uid) := by
  cases hsending : S.sending call with
  | some d =>
    rw [(samePeers_of_sending hsending).peers]
    cases call with
    | init | addPeerInfo | updatePeerInfo | removePeerInfo | handlePingMessage
    | handlePongMessage => cases hsending
    | _ => rfl
  | none =>
    cases call with
    | init => rfl
    | addPeerInfo peerId addr rtt => exact S.get?_addPeerInfo peerId addr rtt
    | updatePeerInfo peerId rtt => exact S.get?_updatePeerInfo peerId rtt
    | removePeerInfo peerId =>
      change Map.get? (S.peers.erase peerId) uid = _
      rw [Map.get?_erase, NetworkCall.peerEvents]
      by_cases huid : peerId = uid
      · rw [if_pos huid, if_pos huid.symm]
        rfl
      · rw [if_neg huid, if_neg (Ne.symm huid)]
        rfl
    | handlePingMessage m s rtt => exact get?_addPeers _ S rtt
    | handlePongMessage m now => exact S.get?_updatePeerInfo _ _
    | handleClose s => exact congrArg (Map.get? · uid) (S.samePeers_handleClose s).peers
    | _ => cases hsending

/-- **The peers are independent registers.** After a run the entry of a UID is what the events of
that UID make of it. -/
theorem get?_run (calls : List NetworkCall) :
    Map.get? (machine.run S calls).peers uid =
      (calls.flatMap (NetworkCall.peerEvents S.myUID uid)).foldl (PeerEvent.record uid)
        (Map.get? S.peers uid) := by
  induction calls generalizing S with
  | nil => rfl
  | cons call calls ih =>
    rw [Machine.run_cons, ih, myUID_next, get?_next, List.flatMap_cons, List.foldl_append]

end Entries

/-- **First come, first served.** In every run of a server, the entry of a UID is what the events of
that UID alone make of it, and the address on record is the first one named for it, by
`AddPeerInfo` or in a ping, since its entry was last removed. -/
theorem peer_first_come (myid : Str) (quorumSize : ℕ) (localIP : UInt32) (localPort : UInt16)
    (socketType : SocketType) (calls : List NetworkCall) (uid : Str) :
    Map.get? (machine.run (new myid quorumSize localIP localPort socketType) calls).peers uid =
        (calls.flatMap (NetworkCall.peerEvents myid uid)).foldl (PeerEvent.record uid) none ∧
      (Map.get? (machine.run (new myid quorumSize localIP localPort socketType) calls).peers
          uid).map PeerInfo.addr =
        ((calls.flatMap (NetworkCall.peerEvents myid uid)).rtakeWhile
          fun event => !event.isRemoved).findSome? PeerEvent.addr? := by
  have hentry : Map.get? (machine.run (new myid quorumSize localIP localPort socketType)
      calls).peers uid =
        (calls.flatMap (NetworkCall.peerEvents myid uid)).foldl (PeerEvent.record uid) none :=
    get?_run _ calls
  exact ⟨hentry, hentry ▸ PeerEvent.addr_foldl_record _⟩

/-! ### Round trip times -/

section RoundTrips

/-- A quarter of a 64-bit number is below 2^62. -/
theorem toNat_div_four_lt (x : UInt64) : (x / 4).toNat < 2 ^ 62 := by
  have hfour : (4 : UInt64).toNat = 4 := rfl
  have hlt := x.toNat_lt
  rw [UInt64.toNat_div, hfour]
  omega

/-- Below 2^62 nothing overflows. -/
theorem toNat_smoothed {rtt sample : UInt64} (hrtt : rtt.toNat < 2 ^ 62)
    (hsample : sample.toNat < 2 ^ 62) :
    ((rtt * 3 + sample) / 4).toNat = Smoothing.smooth 3 rtt.toNat sample.toNat := by
  have hthree : (3 : UInt64).toNat = 3 := rfl
  have hfour : (4 : UInt64).toNat = 4 := rfl
  have hproduct : (rtt * 3).toNat = rtt.toNat * 3 := by
    rw [UInt64.toNat_mul, hthree]
    omega
  have hsum : (rtt * 3 + sample).toNat = rtt.toNat * 3 + sample.toNat := by
    rw [UInt64.toNat_add, hproduct]
    omega
  rw [UInt64.toNat_div, hsum, hfour, Smoothing.smooth, Nat.mul_comm]

/-- Below 2^62, the estimate in the code is the one of natural numbers. -/
theorem toNat_foldl_smoothed {samples : List UInt64} (h : ∀ s ∈ samples, s.toNat < 2 ^ 62)
    {rtt : UInt64} (hrtt : rtt.toNat < 2 ^ 62) :
    (samples.foldl (fun rtt sample => (rtt * 3 + sample) / 4) rtt).toNat =
      (samples.map UInt64.toNat).foldl (Smoothing.smooth 3) rtt.toNat := by
  induction samples generalizing rtt with
  | nil => rfl
  | cons sample samples ih =>
    obtain ⟨hsample, hrest⟩ := List.forall_mem_cons.mp h
    rw [List.foldl_cons, ih hrest (toNat_div_four_lt _), toNat_smoothed hrtt hsample,
      List.map_cons, List.foldl_cons]

/-- 150 samples leave less than one of what was in memory. -/
theorem three_pow_mul_lt {n : ℕ} (h : 150 ≤ n) : 3 ^ n * 2 ^ 62 < 4 ^ n := by
  obtain ⟨k, rfl⟩ := Nat.exists_eq_add_of_le h
  have hle : 3 ^ k ≤ 4 ^ k := Nat.pow_le_pow_left (by omega) k
  have hbase : 3 ^ 150 * 2 ^ 62 < 4 ^ 150 := by norm_num
  calc 3 ^ (150 + k) * 2 ^ 62
      = 3 ^ 150 * 2 ^ 62 * 3 ^ k := by ring
    _ ≤ 3 ^ 150 * 2 ^ 62 * 4 ^ k := Nat.mul_le_mul_left _ hle
    _ < 4 ^ 150 * 4 ^ k := Nat.mul_lt_mul_of_pos_right hbase (by positivity)
    _ = 4 ^ (150 + k) := (pow_add 4 150 k).symm

/-- The estimate forgets what it was, even a value that overflows with the first sample. -/
theorem smoothed_settles {samples : List UInt64} {lo hi : ℕ} (hhi : hi < 2 ^ 62)
    (h : ∀ s ∈ samples, lo ≤ s.toNat ∧ s.toNat ≤ hi) (hmany : 151 ≤ samples.length)
    (rtt : UInt64) :
    lo ≤ (samples.foldl (fun rtt sample => (rtt * 3 + sample) / 4) rtt).toNat + 3 ∧
      (samples.foldl (fun rtt sample => (rtt * 3 + sample) / 4) rtt).toNat ≤ hi := by
  cases samples with
  | nil => simp at hmany
  | cons sample samples =>
    obtain ⟨hsample, hrest⟩ := List.forall_mem_cons.mp h
    have hfirst := toNat_div_four_lt (rtt * 3 + sample)
    rw [List.foldl_cons, toNat_foldl_smoothed (fun s hs => (hrest s hs).2.trans_lt hhi) hfirst]
    refine Smoothing.settles (b := 2 ^ 62) ?_ hfirst.le (by omega) ?_
    · intro n hn
      obtain ⟨s, hs, rfl⟩ := List.mem_map.mp hn
      exact hrest s hs
    · rw [List.length_map]
      exact three_pow_mul_lt (by simpa using hmany)

/-- **Round trip times settle.** Whatever the entry of a peer held at first, after 151 round trips
measured between `lo` and `hi`, in whatever run that does not remove the entry, the round trip time
on record is between them, up to a rounding error of three. -/
theorem rtt_settles {S : ServerNetwork} {uid : Str} {peer : PeerInfo} {calls : List NetworkCall}
    {lo hi : ℕ} (hpeer : Map.get? S.peers uid = some peer)
    (hkept : PeerEvent.removed ∉ calls.flatMap (NetworkCall.peerEvents S.myUID uid))
    (hhi : hi < 2 ^ 62)
    (hsamples : ∀ s ∈ (calls.flatMap (NetworkCall.peerEvents S.myUID uid)).filterMap
      PeerEvent.sample?, lo ≤ s.toNat ∧ s.toNat ≤ hi)
    (hmany : 151 ≤ ((calls.flatMap (NetworkCall.peerEvents S.myUID uid)).filterMap
      PeerEvent.sample?).length) :
    ∃ rtt, Map.get? (machine.run S calls).peers uid = some { peer with rtt := rtt } ∧
      lo ≤ rtt.toNat + 3 ∧ rtt.toNat ≤ hi := by
  rw [get?_run, hpeer, PeerEvent.foldl_record_some hkept]
  exact ⟨_, rfl, smoothed_settles hhi hsamples hmany peer.rtt⟩

/-- A server with one peer, whose entry holds a round trip time from uninitialised memory. -/
def oneKnownPeer : ServerNetwork :=
  ((new [65] 1 1 80 .tcp).addPeerInfo [66] ⟨1, 81, .tcp⟩ 18446744073709551615).1

/-- The peer answers pings after ten milliseconds. -/
theorem rtt_settles_oneKnownPeer :
    ∃ rtt, Map.get? (machine.run oneKnownPeer (List.replicate 151
        (.handlePongMessage ⟨5, ⟨[66], ⟨1, 81, .tcp⟩, 100⟩⟩ 15))).peers [66] =
      some ⟨[66], ⟨1, 81, .tcp⟩, rtt⟩ ∧ 10 ≤ rtt.toNat + 3 ∧ rtt.toNat ≤ 10 := by
  have hevent : NetworkCall.peerEvents oneKnownPeer.myUID [66]
      (.handlePongMessage ⟨5, ⟨[66], ⟨1, 81, .tcp⟩, 100⟩⟩ 15) = [.sampled 10] := by decide
  have hevents : (List.replicate 151 (NetworkCall.handlePongMessage
      ⟨5, ⟨[66], ⟨1, 81, .tcp⟩, 100⟩⟩ 15)).flatMap
        (NetworkCall.peerEvents oneKnownPeer.myUID [66]) =
        List.replicate 151 (.sampled 10) := by
    rw [List.flatMap_replicate, hevent, List.flatten_replicate_singleton]
  have hsamples : (List.replicate 151 (PeerEvent.sampled 10)).filterMap PeerEvent.sample? =
      List.replicate 151 10 := List.filterMap_replicate_of_some rfl
  have hpeer : Map.get? oneKnownPeer.peers [66] =
    some ⟨[66], ⟨1, 81, .tcp⟩, 18446744073709551615⟩ := by decide
  refine rtt_settles hpeer ?_ (by norm_num) ?_ ?_
  · rw [hevents]
    simp
  · rw [hevents, hsamples]
    simp
  · rw [hevents, hsamples, List.length_replicate]

end RoundTrips

end ServerNetwork

end CppPaxos
