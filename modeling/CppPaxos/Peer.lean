import CppPaxos.ProposalID

/-!
# Peers

`paxos/peer.h`: the address of a peer, compared by IP, port and socket type in this
order, and a peer with its UID and its round trip time. Peers are compared by UID alone.
-/

namespace CppPaxos

/-- `deps::SocketType`, in the order in which the server lists the two. -/
inductive SocketType
  | tcp
  | udp
  deriving DecidableEq, Repr

namespace SocketType

/-- The value of the enumerator, by which the types are compared. -/
def value : SocketType → ℕ
  | tcp => 0
  | udp => 1

/-- The two types have different values. -/
theorem value_injective : Function.Injective value := by
  intro type type' h
  cases type <;> cases type' <;> first | rfl | cases h

end SocketType

/-- `struct PeerAddr`. -/
structure PeerAddr where
  /-- `m_ip`. -/
  ip : UInt32
  /-- `m_port`. -/
  port : UInt16
  /-- `m_socketType`. -/
  socketType : SocketType
  deriving DecidableEq, Repr

namespace PeerAddr

/-- `operator<`. -/
def less (a addr : PeerAddr) : Bool :=
  if a.ip < addr.ip then true
  else if a.ip = addr.ip then
    if a.port < addr.port then true
    else if a.port = addr.port then a.socketType.value < addr.socketType.value
    else false
  else false

/-- The triple of IP, port and socket type that `operator<` orders lexicographically. -/
def key (a : PeerAddr) : ℕ ×ₗ ℕ ×ₗ ℕ :=
  toLex (a.ip.toNat, toLex (a.port.toNat, a.socketType.value))

/-- An address is determined by its key. -/
theorem key_injective : Function.Injective key := by
  intro a addr h
  have hpair := Prod.ext_iff.mp (toLex.injective h)
  obtain ⟨hport, htype⟩ := Prod.ext_iff.mp (toLex.injective hpair.2)
  cases a
  cases addr
  simp only [PeerAddr.mk.injEq]
  exact ⟨UInt32.toNat_inj.mp hpair.1, UInt16.toNat_inj.mp hport,
    SocketType.value_injective htype⟩

/-- `operator<` is the lexicographic order. -/
theorem less_iff {a addr : PeerAddr} : a.less addr ↔ a.key < addr.key := by
  have hlex : a.key < addr.key ↔ a.ip.toNat < addr.ip.toNat ∨ a.ip.toNat = addr.ip.toNat ∧
      (a.port.toNat < addr.port.toNat ∨ a.port.toNat = addr.port.toNat ∧
        a.socketType.value < addr.socketType.value) := by
    rw [key, key, Prod.Lex.toLex_lt_toLex, Prod.Lex.toLex_lt_toLex]
  rw [hlex]
  unfold less
  simp only [UInt32.lt_iff_toNat_lt, UInt16.lt_iff_toNat_lt, ← UInt32.toNat_inj,
    ← UInt16.toNat_inj]
  split_ifs <;> simp <;> omega

/-- The order of the keys of `m_addr2socket`. -/
instance : LinearOrder PeerAddr where
  lt a addr := a.less addr
  le a addr := a.less addr ∨ a = addr
  le_refl a := Or.inr rfl
  le_trans a b c := by
    simp only [less_iff, ← key_injective.eq_iff, ← le_iff_lt_or_eq]
    exact le_trans
  lt_iff_le_not_ge a b := by
    simp only [less_iff, ← key_injective.eq_iff, ← le_iff_lt_or_eq]
    exact lt_iff_le_not_ge
  le_antisymm a b := by
    simp only [less_iff, ← key_injective.eq_iff, ← le_iff_lt_or_eq]
    exact le_antisymm
  le_total a b := by
    simp only [less_iff, ← key_injective.eq_iff, ← le_iff_lt_or_eq]
    exact le_total _ _
  toDecidableLE a b := inferInstanceAs (Decidable (a.less b ∨ a = b))
  toDecidableEq := inferInstance
  toDecidableLT a b := inferInstanceAs (Decidable (a.less b = true))

end PeerAddr

/-- `struct PeerInfo`. -/
structure PeerInfo where
  /-- `m_id`. -/
  id : Str
  /-- `m_addr`. -/
  addr : PeerAddr
  /-- `m_rtt`, which is not sent to other nodes. -/
  rtt : UInt64
  deriving DecidableEq, Repr

namespace PeerInfo

/-- The copy constructor does not copy the round trip time. -/
def copy (p : PeerInfo) : PeerInfo := { p with rtt := 100 }

/-- `NoPeerId`. -/
def noPeerId (p : PeerInfo) : Bool := p.id.isEmpty

end PeerInfo

end CppPaxos
