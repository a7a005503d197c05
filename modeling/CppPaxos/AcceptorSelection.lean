import CppPaxos.NetworkSteps
import Mathlib.Data.List.Perm.Subperm

/-!
# The choice of acceptors

`SelectMajorityAcceptors` walks through the peers from the first one after the cursor
`m_maxChoosenAcceptorUID`, and goes on at the beginning when it reaches the end. The walk
ends after a quorum of peers, all of them different. Nothing ever moves the cursor, so
each `sendPrepare` chooses the same peers again.
-/

namespace CppPaxos

open Machines Tables

namespace ServerNetwork

/-- The entries of the peers, once round from the first key greater than the cursor. -/
def walk (S : ServerNetwork) : List (Str × PeerInfo) := S.peers.walkFrom S.maxChoosenAcceptorUID

/-- The UIDs of a list of entries. -/
def ids (entries : List (Str × PeerInfo)) : List Str := entries.map fun entry => entry.2.id

section Loop

variable (S : ServerNetwork)

/-- Once the count has reached the quorum size the loop stops. -/
theorem selectLoop_of_le {cnt : ℕ} (h : S.quorumSize ≤ cnt) (fuel : ℕ)
    (itr : List (Str × PeerInfo)) (acceptors : UIDSet) :
    S.selectLoop fuel cnt itr acceptors = some acceptors := by
  cases fuel <;> simp only [selectLoop, if_neg (not_lt.mpr h)]

/-- As long as the iterator does not reach the end, the loop takes the next entries. -/
theorem selectLoop_of_le_length (itr : List (Str × PeerInfo)) (fuel cnt : ℕ) (acceptors : UIDSet)
    (hlength : S.quorumSize ≤ cnt + itr.length) (hfuel : S.quorumSize ≤ cnt + fuel) :
    S.selectLoop fuel cnt itr acceptors =
      some ((ids (itr.take (S.quorumSize - cnt))).foldl Table.insert acceptors) := by
  induction itr generalizing fuel cnt acceptors with
  | nil =>
    rw [S.selectLoop_of_le (by simpa using hlength), List.take_nil]
    rfl
  | cons entry rest ih =>
    rw [List.length_cons] at hlength
    by_cases hcnt : cnt < S.quorumSize
    · obtain ⟨fuel, rfl⟩ : ∃ more, fuel = more + 1 := ⟨fuel - 1, by omega⟩
      obtain ⟨left, hleft⟩ : ∃ left, S.quorumSize - cnt = left + 1 :=
        ⟨S.quorumSize - cnt - 1, by omega⟩
      have hnext : S.quorumSize - (cnt + 1) = left := by omega
      rw [selectLoop, if_pos hcnt, ih fuel (cnt + 1) _ (by omega) (by omega), hleft, hnext]
      rfl
    · have hnone : S.quorumSize - cnt = 0 := by omega
      rw [S.selectLoop_of_le (not_lt.mp hcnt), hnone]
      rfl

/-- A walk that reaches the end takes everything up to it and goes on at the beginning. -/
theorem selectLoop_to_begin (itr : List (Str × PeerInfo)) (fuel cnt : ℕ) (acceptors : UIDSet)
    (hlength : cnt + itr.length < S.quorumSize) :
    S.selectLoop (fuel + 1 + itr.length) cnt itr acceptors =
      S.selectLoop fuel (cnt + itr.length) S.peers.entries
        ((ids itr).foldl Table.insert acceptors) := by
  induction itr generalizing cnt acceptors with
  | nil =>
    have hcnt : cnt < S.quorumSize := by simpa using hlength
    rw [List.length_nil, Nat.add_zero, selectLoop, if_pos hcnt]
    rfl
  | cons entry rest ih =>
    rw [List.length_cons] at hlength
    have hcnt : cnt + (rest.length + 1) = cnt + 1 + rest.length := by omega
    rw [List.length_cons, ← Nat.add_assoc, selectLoop, if_pos (by omega),
      ih (cnt + 1) _ (by omega), hcnt]
    rfl

/-- The walk passes each entry once. -/
theorem walk_length : S.walk.length = S.peers.size := (S.peers.walkFrom_perm _).length_eq

/-- With enough fuel the loop ends with the first entries of the walk. -/
theorem selectLoop_eq (hsize : S.quorumSize ≤ S.peers.size) {fuel : ℕ}
    (hfuel : S.quorumSize + 1 ≤ fuel) :
    S.selectLoop fuel 0 (S.peers.upperBound S.maxChoosenAcceptorUID) .empty =
      some (Table.ofList (ids (S.walk.take S.quorumSize))) := by
  have hlength := S.walk_length
  rw [walk, Table.walkFrom_eq] at hlength ⊢
  generalize hupper : S.peers.upperBound S.maxChoosenAcceptorUID = upper at hlength ⊢
  rw [List.length_append] at hlength
  by_cases hend : S.quorumSize ≤ upper.length
  · rw [S.selectLoop_of_le_length _ _ _ _ (by omega) (by omega),
      List.take_append_of_le_length hend]
    rfl
  · obtain ⟨more, rfl⟩ : ∃ more, fuel = more + 1 + upper.length :=
      ⟨fuel - 1 - upper.length, by omega⟩
    have hentries : S.quorumSize ≤ upper.length + S.peers.entries.length := by
      rw [Table.size] at hsize
      omega
    -- the entries taken after the end are among those up to the cursor
    have hrest : S.peers.entries.take (S.quorumSize - upper.length) =
        (S.peers.upTo S.maxChoosenAcceptorUID).take (S.quorumSize - upper.length) := by
      rw [← S.peers.upTo_append_upperBound S.maxChoosenAcceptorUID]
      exact List.take_append_of_le_length (by omega)
    have htake : (upper ++ S.peers.upTo S.maxChoosenAcceptorUID).take S.quorumSize =
        upper ++ (S.peers.upTo S.maxChoosenAcceptorUID).take (S.quorumSize - upper.length) := by
      rw [List.take_append, List.take_of_length_le (by omega)]
    rw [S.selectLoop_to_begin _ _ _ _ (by omega), Nat.zero_add,
      S.selectLoop_of_le_length _ _ _ _ hentries (by omega), hrest, htake]
    simp only [Table.ofList, ids, List.map_append, List.foldl_append]

end Loop

/-- The chosen UIDs are those of the first entries of the walk. -/
theorem selectMajorityAcceptors_eq {S : ServerNetwork} (hsize : S.quorumSize ≤ S.peers.size)
    (acceptors : UIDSet) :
    S.selectMajorityAcceptors acceptors = Table.ofList (ids (S.walk.take S.quorumSize)) := by
  rw [selectMajorityAcceptors, selectWithFuel, if_neg (not_lt.mpr hsize),
    S.selectLoop_eq hsize le_rfl]
  rfl

/-- The UIDs of named entries are their keys. -/
theorem PeersNamed.ids_eq {S : ServerNetwork} (h : S.PeersNamed) {entries : List (Str × PeerInfo)}
    (hentries : ∀ entry ∈ entries, entry ∈ S.peers.entries) :
    ids entries = entries.map Prod.fst :=
  List.map_congr_left fun entry hentry =>
    h entry.1 entry.2 (Map.get?_eq_some_iff.mpr (hentries entry hentry))

/-- What the walk passes are entries of the peers. -/
theorem mem_of_mem_walk_take {S : ServerNetwork} {n : ℕ} :
    ∀ entry ∈ S.walk.take n, entry ∈ S.peers.entries := fun _ hentry =>
  (S.peers.walkFrom_perm _).mem_iff.mp (List.mem_of_mem_take hentry)

/-- No UID is met twice. -/
theorem walk_keys_nodup (S : ServerNetwork) : (S.walk.map Prod.fst).Nodup :=
  ((S.peers.walkFrom_perm _).map Prod.fst).nodup_iff.mpr S.peers.keys_nodup

/-- The chosen UIDs are the first keys of the walk, each of them once. -/
theorem PeersNamed.chosen_perm {S : ServerNetwork} (h : S.PeersNamed) (n : ℕ) :
    (Table.ofList (ids (S.walk.take n)) : UIDSet).entries.Perm ((S.walk.take n).map Prod.fst) := by
  have hnodup : ((S.walk.take n).map Prod.fst).Nodup :=
    S.walk_keys_nodup.sublist ((List.take_sublist n S.walk).map Prod.fst)
  rw [h.ids_eq mem_of_mem_walk_take]
  exact Table.ofList_entries_perm Function.injective_id hnodup

/-- **The choice of acceptors.** If there are enough peers, the loop ends and the chosen UIDs are
the first ones met in a walk through the keys from the first key greater than the cursor: as many
different peers as the quorum needs. If there are too few peers, the set is left as it is. -/
theorem selectWithFuel_spec {S : ServerNetwork} (hnamed : S.PeersNamed) (acceptors : UIDSet) :
    (S.quorumSize ≤ S.peers.size → ∃ chosen : UIDSet,
      (∀ fuel, S.quorumSize + 1 ≤ fuel → S.selectWithFuel fuel acceptors = some chosen) ∧
      chosen.entries.Perm ((S.walk.take S.quorumSize).map Prod.fst) ∧
      chosen.size = S.quorumSize ∧
      ∀ uid ∈ chosen.entries, ∃ peer, Map.get? S.peers uid = some peer) ∧
    (S.peers.size < S.quorumSize → ∀ fuel, S.selectWithFuel fuel acceptors = some acceptors) := by
  constructor
  · intro hsize
    have hperm := hnamed.chosen_perm S.quorumSize
    refine ⟨_, fun fuel hfuel => ?_, hperm, ?_, fun uid huid => ?_⟩
    · rw [selectWithFuel, if_neg (not_lt.mpr hsize), S.selectLoop_eq hsize hfuel]
    · rw [Table.size, hperm.length_eq, List.length_map, List.length_take, walk_length,
        min_eq_left hsize]
    · obtain ⟨entry, hentry, rfl⟩ := List.mem_map.mp (hperm.mem_iff.mp huid)
      exact ⟨entry.2, Map.get?_eq_some_iff.mpr (mem_of_mem_walk_take entry hentry)⟩
  · intro hsize fuel
    rw [selectWithFuel, if_pos hsize]

/-- Three peers and a cursor between the second and the third: the walk starts at the third one and
goes on at the first. -/
theorem selectWithFuel_spec_wrapped :
    let S : ServerNetwork := { new [65] 2 1 1 .tcp with
      peers := .ofList [([66], ⟨[66], ⟨1, 1, .tcp⟩, 0⟩), ([67], ⟨[67], ⟨2, 1, .tcp⟩, 0⟩),
        ([68], ⟨[68], ⟨3, 1, .tcp⟩, 0⟩)]
      maxChoosenAcceptorUID := [67] }
    ∃ chosen : UIDSet, (∀ fuel, 3 ≤ fuel → S.selectWithFuel fuel .empty = some chosen) ∧
      chosen.entries.Perm [[68], [66]] := by
  intro S
  have hnamed : S.PeersNamed := by
    intro uid peer hpeer
    rw [Map.get?_eq_some_iff] at hpeer
    have hall : ∀ entry ∈ S.peers.entries, entry.2.id = entry.1 := by decide
    exact hall _ hpeer
  obtain ⟨chosen, hfuel, hperm, -⟩ := (selectWithFuel_spec hnamed .empty).1 (by decide)
  exact ⟨chosen, hfuel, hperm⟩

/-! ### Choosing again and again -/

/-- What consecutive calls of `sendPrepare` choose. -/
def selections (S : ServerNetwork) : List (ProposalID × (ℕ → SocketPtr)) → List UIDSet
  | [] => []
  | (proposalID, connect) :: rest =>
    let S := (S.sendPrepare proposalID connect).1
    S.majorityAcceptors :: S.selections rest

/-- Every call chooses the same acceptors. -/
theorem selections_eq {chosen : List (Str × PeerInfo)} {n : ℕ}
    (prepares : List (ProposalID × (ℕ → SocketPtr))) :
    ∀ S : ServerNetwork, S.quorumSize ≤ S.peers.size → S.quorumSize = n → S.walk = chosen →
      S.selections prepares =
        List.replicate prepares.length (Table.ofList (ids (chosen.take n))) := by
  induction prepares with
  | nil => exact fun _ _ _ _ => rfl
  | cons prepare rest ih =>
    intro S hsize hn hwalk
    have hchosen : (S.sendPrepare prepare.1 prepare.2).1.majorityAcceptors =
        Table.ofList (ids (chosen.take n)) := by
      rw [sendPrepare_eq, sendMessageToEach_majorityAcceptors, ← hn, ← hwalk]
      exact selectMajorityAcceptors_eq hsize _
    have hlater : (S.sendPrepare prepare.1 prepare.2).1.selections rest =
        List.replicate rest.length (Table.ofList (ids (chosen.take n))) := by
      apply ih
      · simpa [sendPrepare_eq, chooseAcceptors] using hsize
      · simpa [sendPrepare_eq, chooseAcceptors] using hn
      · rw [← hwalk, walk, walk, sendPrepare_eq, sendMessageToEach_peers,
          sendMessageToEach_maxChoosenAcceptorUID]
        rfl
    rw [selections, hchosen, hlater]
    rfl

/-- **Rotation over all peers.** As many calls of `sendPrepare` as there are peers choose every peer
at least once exactly if the quorum consists of all peers. -/
theorem prepares_choose_all_iff {S : ServerNetwork} (hnamed : S.PeersNamed)
    {prepares : List (ProposalID × (ℕ → SocketPtr))} (hpos : 1 ≤ S.quorumSize)
    (hsize : S.quorumSize ≤ S.peers.size) (hlength : prepares.length = S.peers.size) :
    (∀ uid peer, Map.get? S.peers uid = some peer →
      ∃ chosen ∈ S.selections prepares, uid ∈ chosen.entries) ↔ S.quorumSize = S.peers.size := by
  have hperm := hnamed.chosen_perm S.quorumSize
  rw [S.selections_eq prepares hsize rfl rfl]
  constructor
  · intro hall
    have hsub : S.walk.map Prod.fst ⊆ (S.walk.take S.quorumSize).map Prod.fst := by
      intro uid huid
      obtain ⟨entry, hentry, rfl⟩ := List.mem_map.mp huid
      have hmem : entry ∈ S.peers.entries := (S.peers.walkFrom_perm _).mem_iff.mp hentry
      obtain ⟨chosen, hchosen, huid⟩ := hall _ _ (Map.get?_eq_some_iff.mpr hmem)
      rw [List.eq_of_mem_replicate hchosen] at huid
      exact hperm.mem_iff.mp huid
    have hle := (List.subperm_of_subset S.walk_keys_nodup hsub).length_le
    rw [List.length_map, List.length_map, List.length_take, walk_length] at hle
    omega
  · intro heq uid peer hpeer
    refine ⟨_, List.mem_replicate.mpr ⟨by omega, rfl⟩, ?_⟩
    have hmem : (uid, peer) ∈ S.walk :=
      (S.peers.walkFrom_perm _).mem_iff.mpr (Map.get?_eq_some_iff.mp hpeer)
    rw [hperm.mem_iff, heq, ← walk_length, List.take_length]
    exact List.mem_map_of_mem hmem

/-- With two peers and a quorum of both, two prepare requests go to both. -/
theorem prepares_choose_all_of_two :
    let S := machine.run (new [65] 2 1 1 .tcp)
      [.addPeerInfo [66] ⟨1, 1, .tcp⟩ 0, .addPeerInfo [67] ⟨2, 1, .tcp⟩ 0]
    ∀ uid peer, Map.get? S.peers uid = some peer →
      ∃ chosen ∈ S.selections [(⟨1, [65]⟩, fun _ => 0), (⟨2, [65]⟩, fun _ => 0)],
        uid ∈ chosen.entries :=
  (prepares_choose_all_iff (peersNamed_run _ _ _ _ _ _) (by decide) (by decide)
    (by decide)).mpr (by decide)

/-- With two peers and a quorum of one, two prepare requests both go to the first peer. -/
theorem prepares_miss_second_peer :
    let S := machine.run (new [65] 1 1 1 .tcp)
      [.addPeerInfo [66] ⟨1, 1, .tcp⟩ 0, .addPeerInfo [67] ⟨2, 1, .tcp⟩ 0]
    ¬∀ uid peer, Map.get? S.peers uid = some peer →
      ∃ chosen ∈ S.selections [(⟨1, [65]⟩, fun _ => 0), (⟨2, [65]⟩, fun _ => 0)],
        uid ∈ chosen.entries := by
  intro S hall
  exact absurd (hall [67] ⟨[67], ⟨2, 1, .tcp⟩, 0⟩ (by decide)) (by decide)

end ServerNetwork

end CppPaxos
