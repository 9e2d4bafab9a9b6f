import Sprawl.Lib.Cxx

/-!
# Datagrams of one size (`net/udp.cc`)

`UDPClient::Send` reads `kMaxUDPSize` bytes from the pointer it is given, however many
there are, and `UDPListener::ListenWith` reads a datagram into an array of that size that
was filled with zeros.
-/

namespace Net

open Cxx

def kMaxUDPSize : Nat := 508

/-- `UDPClient::Send`: the datagram that `sendto` is given.  (An error of `sendto` goes
unnoticed.) -/
def send (message : List UInt8) : Except Stop (List UInt8) := readRange message 0 kMaxUDPSize

/-- The buffer in `UDPListener::ListenWith` behind `read`. -/
def receiveBuffer (datagram : List UInt8) : List UInt8 :=
  datagram.take kMaxUDPSize ++ List.replicate (kMaxUDPSize - datagram.length) 0

theorem receiveBuffer_full {bytes : List UInt8} (h : kMaxUDPSize ≤ bytes.length) :
    receiveBuffer (bytes.take kMaxUDPSize) = bytes.take kMaxUDPSize := by
  have hlen : (bytes.take kMaxUDPSize).length = kMaxUDPSize := by
    rw [List.length_take]
    omega
  unfold receiveBuffer
  rw [hlen, Nat.sub_self, List.replicate_zero, List.append_nil, List.take_take, Nat.min_self]

end Net
