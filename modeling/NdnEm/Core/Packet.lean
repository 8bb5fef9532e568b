import Mathlib.Algebra.Ring.Int.Defs
import Mathlib.Algebra.Ring.Nat
import Mathlib.Data.List.Basic

/-!
# Names, packets and the machine they live on

What an NDN packet is to the emulator: the fields of the decoded Interest or
Data that some function reads, and the wire size the devices charge for. The
selectors and signatures nothing looks at are left out.

Clock readings and spans of time are integers, in the ticks of the clock
they come from.

A `Packet` object is different from the wire it wraps. The wire never changes;
the two link addresses do, in place, through every pointer to the object. So a
`Packet` here is a reference — an object number and its immutable wire — and
the addresses live in the emulator's store, indexed by that number.
-/

namespace NdnEm

/-- The bytes of one name component. -/
abbrev Component := List UInt8

/-- `ndn::Name`: equality and prefix order are those of the components. -/
abbrev Name := List Component

/-- The component an ASCII literal denotes. -/
def component (s : String) : Component := s.toList.map fun c => c.toNat.toUInt8

/-- A link-layer address, `uint64_t`. -/
abbrev MacAddr := UInt64

/-- `0xffff`, assumed to be the broadcast address. -/
def broadcastMac : MacAddr := 0xffff

/-- What ends a run: an exception nothing catches, a failed `assert`, or an
access the language gives no meaning to. -/
inductive Fault
  | runtimeError (what : String)
  | assertion (cond : String)
  | undefined (what : String)
deriving DecidableEq, Repr

/-! ## Integer conversions -/

/-- Conversion of an integer to `int`, modulo `2 ^ 32`. -/
def toInt (n : Int) : Int := n.bmod (2 ^ 32)

/-- Conversion of an integer to `size_t`, modulo `2 ^ 64`. -/
def toSize (n : Int) : Nat := (n % 2 ^ 64).toNat

theorem toInt_of_range {n : Int} (hlo : -(2 ^ 31) ≤ n) (hhi : n < 2 ^ 31) : toInt n = n := by
  unfold toInt
  rw [Int.bmod_eq_of_le] <;> omega

/-- The low 32 bits, read as a signed number. -/
theorem toInt_eq (n : Int) :
    toInt n = if n % 2 ^ 32 < 2 ^ 31 then n % 2 ^ 32 else n % 2 ^ 32 - 2 ^ 32 := by
  unfold toInt
  rw [Int.bmod_def]
  rfl

theorem toSize_of_range {n : Int} (hlo : 0 ≤ n) (hhi : n < 2 ^ 64) : (toSize n : Int) = n := by
  unfold toSize
  rw [Int.emod_eq_of_lt hlo hhi, Int.toNat_of_nonneg hlo]

/-! ## Interest and Data -/

/-- The decoded Interest, as far as the node reads it. -/
structure Interest where
  name : Name
  nonce : UInt32
  /-- `getInterestLifetime ()`; a decoded Interest without one has 4 s. -/
  interestLifetime : Int
  mustBeFresh : Bool
  /-- The size of the wire encoding. -/
  size : Nat
deriving DecidableEq, Repr

/-- The decoded Data, as far as the node reads it. -/
structure Data where
  name : Name
  /-- `getFreshnessPeriod ()`; negative when the packet carries none. -/
  freshnessPeriod : Int
  content : List UInt8
  /-- The size of the wire encoding. -/
  size : Nat
deriving DecidableEq, Repr

/-- The wire of a packet the node sends: `InterestPacket` or `DataPacket`. -/
inductive Wire
  | interest (i : Interest)
  | data (d : Data)
deriving DecidableEq, Repr

def Wire.size : Wire → Nat
  | .interest i => i.size
  | .data d => d.size

/-- The block a face is asked to dispatch: a well-formed packet, a block of
type Interest or Data that does not decode, or one of another type. -/
inductive Block
  | packet (w : Wire)
  | malformed
  | unknown
deriving DecidableEq, Repr

/-- A pointer to a `Packet` object. -/
structure Packet where
  id : Nat
  wire : Wire
deriving DecidableEq, Repr

def Packet.getLength (p : Packet) : Nat := p.wire.size

/-- The mutable part of a `Packet` object, `m_dst` and `m_src`. -/
structure Address where
  dst : MacAddr
  src : MacAddr
deriving DecidableEq, Repr

end NdnEm
