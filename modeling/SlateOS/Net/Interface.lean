/-
# SlateOS.Net.Interface -- network addresses

The address types of `kernel/src/net/interface.rs` and `ipv6.rs`, and the namespace ids of `netns.rs`.
-/
import Mathlib.Data.Nat.Notation

namespace SlateOS.Net

/-- `Ipv4Addr`: four octets. -/
abbrev Ipv4Addr := Vector UInt8 4

/-- `Ipv4Addr::UNSPECIFIED`. -/
def Ipv4Addr.unspecified : Ipv4Addr := Vector.replicate 4 0

/-- `Ipv6Addr`: sixteen octets. -/
abbrev Ipv6Addr := Vector UInt8 16

/-- `NetNsId`. -/
abbrev NetNsId := Nat

/-- `netns::ROOT_NS`. -/
def rootNs : NetNsId := 0

end SlateOS.Net
