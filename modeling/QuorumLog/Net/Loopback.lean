import QuorumLog.Net.Address

/-! Listening on a host that has no addresses but those that every host has: the loopback addresses,
and the ones that stand for all. -/

namespace QuorumLog.SocketAddress

/-- The error number of an address that is not one of the host. -/
def notAvailable : Nat := 99

/-- Whether every host has the address. -/
def isEverywhere : SocketAddress → Bool
  | v4 ip _ => ip.a = 127 || ip = ⟨0, 0, 0, 0⟩
  | v6 ip _ _ => ip.groups.take 7 = List.replicate 7 0 && ip.groups.getLast?.any (· ≤ 1)

/-- Where the host listens when it is asked to listen at an address; for the port 0 it takes a free
one. -/
def listen (freePort : UInt16) (a : SocketAddress) : Except Nat SocketAddress :=
  if a.isEverywhere then .ok (if a.port = 0 then a.withPort freePort else a)
  else .error notAvailable

end QuorumLog.SocketAddress
