import NdnEm.Core.Fib

/-!
# The fib manager's command half

A register command is an Interest under `/localhost/nfd/rib` whose next two
components are a verb and a block of parameters. Decoding and validating the
parameters, encoding and signing the response are the packet library's work;
they come in as a record of functions, and nothing below assumes anything
about them.

What is the emulator's own is the path from the decoded FaceId to the table:
it is 64 bits wide in the command and an `int` in the table, and a missing or
zero one means the face the command came from.
-/

namespace NdnEm

/-- `ControlParameters`, as far as the fib manager reads them. -/
structure ControlParameters where
  name : Option Name
  faceId : Option UInt64
  /-- The remaining fields, which only reach the encoded response. -/
  others : List UInt8
deriving DecidableEq, Repr

structure ControlResponse where
  code : Nat
  text : String
  /-- The parameters whose encoding is the body. -/
  body : Option ControlParameters
deriving DecidableEq, Repr

/-- The packet library, as far as the emulator calls it. -/
structure NdnCxx where
  /-- `blockFromValue` and `wireDecode`; `none` is a `Tlv::Error`. -/
  decodeParameters : Component → Option ControlParameters
  /-- `RibRegisterCommand::validateRequest`; `false` is an `ArgumentError`. -/
  validateRequest : ControlParameters → Bool
  applyDefaultsToRequest : ControlParameters → ControlParameters
  encodeResponse : ControlResponse → List UInt8
  /-- The wire size of a Data once it is signed. -/
  signedSize : Name → List UInt8 → Nat
  /-- The freshness period of a Data that was given none. -/
  defaultFreshness : Int

structure FibManager where
  id : Int
  fibCmdPrefix : Name
deriving DecidableEq, Repr

/-- `/localhost/nfd/rib`. -/
def ribPrefix : Name := [component "localhost", component "nfd", component "rib"]

namespace FibManager

def extractParameters (lib : NdnCxx) (parameterComponent : Component) :
    Option ControlParameters :=
  lib.decodeParameters parameterComponent

def validateParameters (lib : NdnCxx) (parameters : ControlParameters) :
    Bool × ControlParameters :=
  if lib.validateRequest parameters then (true, lib.applyDefaultsToRequest parameters)
  else (false, parameters)

def addNextHop (lib : NdnCxx) (fib : Fib) (parameters : ControlParameters) :
    Except Fault (Fib × ControlResponse) :=
  match validateParameters lib parameters with
  | (false, _) => .ok (fib, ⟨400, "Malformed command", none⟩)
  | (true, parameters) =>
      -- both getters assert that their field is present
      match parameters.name, parameters.faceId with
      | some p, some faceId =>
          -- the uint64_t becomes the int parameter of AddRoute
          .ok (fib.addRoute p (toInt faceId.toNat), ⟨200, "Success", some parameters⟩)
      | none, _ => .error (.assertion "this->hasName ()")
      | some _, none => .error (.assertion "this->hasFaceId ()")

variable {lib : NdnCxx} {fib fib' : Fib} {p : ControlParameters} {r : ControlResponse}

/-- A next hop is refused, or installed under the id that is echoed, as an
`int`. -/
theorem addNextHop_cases (h : addNextHop lib fib p = .ok (fib', r)) :
    (lib.validateRequest p = false ∧ fib' = fib ∧ r = ⟨400, "Malformed command", none⟩) ∨
    (lib.validateRequest p = true ∧ ∃ n x,
      (lib.applyDefaultsToRequest p).name = some n ∧
      (lib.applyDefaultsToRequest p).faceId = some x ∧
      fib' = fib.addRoute n (toInt x.toNat) ∧
      r = ⟨200, "Success", some (lib.applyDefaultsToRequest p)⟩) := by
  unfold addNextHop validateParameters at h
  by_cases hvalid : lib.validateRequest p = true
  · rw [if_pos hvalid] at h
    simp only [] at h
    split at h
    · next n x hn hx =>
        obtain ⟨rfl, rfl⟩ := Prod.mk.inj (Except.ok.inj h)
        exact .inr ⟨hvalid, n, x, hn, hx, rfl, rfl⟩
    · cases h
    · cases h
  · rw [if_neg hvalid] at h
    obtain ⟨rfl, rfl⟩ := Prod.mk.inj (Except.ok.inj h)
    exact .inl ⟨Bool.eq_false_of_not_eq_true hvalid, rfl, rfl⟩

/-- A next hop is one route, or none. -/
theorem addNextHop_fib (h : addNextHop lib fib p = .ok (fib', r)) :
    fib' = fib ∨ ∃ n g, fib' = fib.addRoute n g := by
  rcases addNextHop_cases h with ⟨_, rfl, _⟩ | ⟨_, n, x, _, _, rfl, _⟩
  · exact .inl rfl
  · exact .inr ⟨n, _, rfl⟩

end FibManager

end NdnEm
