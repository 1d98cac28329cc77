import Mathlib
import Alto.Common.Double
import Alto.Common.IStream
import Alto.Lib.LessMap
import Alto.Lib.StdMap

/-!
# Guidance matrices and their manager

`PeeringGuidanceMatrixOptions` (`common/cpp/src/lib/peering_guidance_matrix_opts.cpp`), the parts of
`PeeringGuidanceMatrix` (`peering_guidance_matrix.cpp`) and of its connection to an Optimization
Engine (`protocol/protobase.cpp`, `inet_service.cpp`) that identify a matrix, and
`PeeringGuidanceMatrixManager` (`peering_guidance_matrix_manager.cpp`). ISPs are pointers. The state
holds the matrices at their addresses; what `new` and `curl_easy_init` return is an input of a call.
-/

namespace Alto.Guidance

open Lib

/-! ## Options -/

/-- `PeeringGuidanceMatrixOptions::OptType`. -/
inductive OptType where
  | locationOnly
  | filesharingMatching
  | streamingSSM
  | streamingSSMCM
deriving DecidableEq, Repr

/-- The number of the enumerator. -/
def OptType.toNat : OptType → Nat
  | locationOnly => 0
  | filesharingMatching => 1
  | streamingSSM => 2
  | streamingSSMCM => 3

/-- `PeeringGuidanceMatrixOptions`, with the values of its constructor. The constant `0.9` is the
double closest to it. -/
structure PeeringGuidanceMatrixOptions where
  opttype : OptType := .filesharingMatching
  matchingUsesSwarmState : Bool := false
  overloadProtectionFactor : Double := 0
  useOptengineTTL : Bool := true
  recomputeInterval : Int := 5 * 60
  streamingdependentChannelrate : Double := 48000
  intrapidPct : Double := .fin (3 / 4)
  intraispPct : Double := .fin (8106479329266893 / 2 ^ 53)
deriving DecidableEq

namespace PeeringGuidanceMatrixOptions

/-- `PeeringGuidanceMatrixOptions::isSwarmDependent`. -/
def isSwarmDependent (options : PeeringGuidanceMatrixOptions) : Bool :=
  options.matchingUsesSwarmState || Double.lt 0 options.overloadProtectionFactor

/-- `operator==`. -/
def beq (lhs rhs : PeeringGuidanceMatrixOptions) : Bool :=
  lhs.opttype == rhs.opttype && lhs.matchingUsesSwarmState == rhs.matchingUsesSwarmState &&
    lhs.overloadProtectionFactor.eq rhs.overloadProtectionFactor

/-- `operator<`. -/
def less (lhs rhs : PeeringGuidanceMatrixOptions) : Bool :=
  if lhs.opttype.toNat < rhs.opttype.toNat then true
  else if rhs.opttype.toNat < lhs.opttype.toNat then false
  else if lhs.matchingUsesSwarmState < rhs.matchingUsesSwarmState then true
  else if rhs.matchingUsesSwarmState < lhs.matchingUsesSwarmState then false
  else if lhs.overloadProtectionFactor.lt rhs.overloadProtectionFactor then true
  else if rhs.overloadProtectionFactor.lt lhs.overloadProtectionFactor then false
  else if lhs.streamingdependentChannelrate.lt rhs.streamingdependentChannelrate then true
  else if rhs.streamingdependentChannelrate.lt lhs.streamingdependentChannelrate then false
  else if lhs.intrapidPct.lt rhs.intrapidPct then true
  else if rhs.intrapidPct.lt lhs.intrapidPct then false
  else if lhs.intraispPct.lt rhs.intraispPct then true
  else if rhs.intraispPct.lt lhs.intraispPct then false
  else false

end PeeringGuidanceMatrixOptions

/-! ## The connection to an Optimization Engine -/

/-- `InetService`. -/
structure InetService where
  address : List Char
  port : Nat
deriving DecidableEq, Repr

namespace InetService

/-- `InetService::INVALID`. -/
def invalid : InetService := ⟨[], 0⟩

/-- `InetService::InetService(const std::string&)`. -/
def ofText (service : List Char) : InetService :=
  if ':' ∈ service then
    -- from the end: the port up to the last colon, and the address before it
    let portText := (service.reverse.takeWhile (· ≠ ':')).reverse
    let address := ((service.reverse.dropWhile (· ≠ ':')).drop 1).reverse
    if portText.isEmpty then invalid
    else
      let (port, rest) := strtoul (cString portText)
      if rest ≠ [] ∨ 65535 < port then invalid else ⟨address, port⟩
  else invalid

/-- `p4p_token_cast<InetService>`. -/
def cast (text : List Char) : Option InetService :=
  match (IStream.getString { rest := text }).1 with
  | none => none
  | some token => if ofText token = invalid then none else some (ofText token)

end InetService

/-- How a call ends: it returns a value, throws `std::runtime_error`, or has no defined behaviour. -/
inductive Outcome (S A : Type) where
  | returned (value : A) (state : S)
  | threw (state : S)
  | undefined

/-- The system in one call: an allocator that never returns an address in use, and whether there is a
handle of libcurl. -/
structure System where
  alloc : List Nat → Nat
  fresh : ∀ live, alloc live ∉ live
  curl : Bool := true

/-- `P4PProtocol`: the server. -/
structure P4PProtocol where
  host : List Char
  port : Nat
deriving DecidableEq

/-- `P4PProtocol::P4PProtocol`. A host with a colon contains its port; a failed `p4p_token_cast`
writes through a null pointer. -/
def P4PProtocol.create (sys : System) (host : List Char) (port : Nat) : Outcome Unit P4PProtocol :=
  if ':' ∈ host then
    match InetService.cast host with
    | none => .undefined
    | some service => if sys.curl then .returned ⟨service.address, service.port⟩ () else .threw ()
  else if sys.curl then .returned ⟨host, port⟩ () else .threw ()

/-! ## Matrices and their keys -/

/-- The fields of `PeeringGuidanceMatrix` that identify it. -/
structure PeeringGuidanceMatrix (ISP : Type) where
  proto : P4PProtocol
  isp : ISP
  options : PeeringGuidanceMatrixOptions
deriving DecidableEq

/-- `PeeringGuidanceMatrixManager::GuidanceMatrixKey`. -/
structure GuidanceMatrixKey (ISP : Type) where
  isp : ISP
  options : PeeringGuidanceMatrixOptions
  optEngineAddr : List Char := []
  optEnginePort : Nat := 0
deriving DecidableEq

variable {ISP : Type}

/-- The key that `releaseGuidanceMatrix`, `addGuidanceMatrixRef` and `compute` construct. -/
def PeeringGuidanceMatrix.key (matrix : PeeringGuidanceMatrix ISP) : GuidanceMatrixKey ISP :=
  ⟨matrix.isp, matrix.options, matrix.proto.host, matrix.proto.port⟩

/-- `GuidanceMatrixKey::operator<`. -/
def GuidanceMatrixKey.less [LinearOrder ISP] (lhs rhs : GuidanceMatrixKey ISP) : Bool :=
  if lhs.isp < rhs.isp then true
  else if rhs.isp < lhs.isp then false
  else if lhs.options.less rhs.options then true
  else if rhs.options.less lhs.options then false
  else if lhs.optEngineAddr < rhs.optEngineAddr then true
  else if rhs.optEngineAddr < lhs.optEngineAddr then false
  else if lhs.optEnginePort < rhs.optEnginePort then true
  else if rhs.optEnginePort < lhs.optEnginePort then false
  else false

/-- `PeeringGuidanceMatrixManager::GuidanceMatrixContainer`: the address of its matrix, and an
`unsigned int`. -/
structure GuidanceMatrixContainer where
  matrix : Nat
  refcount : Nat := 1
deriving DecidableEq

namespace GuidanceMatrixContainer

/-- `incRefCount`. -/
def incRefCount (c : GuidanceMatrixContainer) : GuidanceMatrixContainer :=
  { c with refcount := (c.refcount + 1) % 2 ^ 32 }

/-- `decRefCount`. -/
def decRefCount (c : GuidanceMatrixContainer) : GuidanceMatrixContainer :=
  { c with refcount := (c.refcount + (2 ^ 32 - 1)) % 2 ^ 32 }

/-- `isReferenced`. -/
def isReferenced (c : GuidanceMatrixContainer) : Bool := decide (0 < c.refcount)

end GuidanceMatrixContainer

/-- The matrix that `GuidanceMatrixContainer::GuidanceMatrixContainer` creates. Without an
Optimization Engine the constructor of the matrix throws. -/
def GuidanceMatrixKey.createMatrix (sys : System) (key : GuidanceMatrixKey ISP) :
    Outcome Unit (PeeringGuidanceMatrix ISP) :=
  if key.optEngineAddr.isEmpty then .threw ()
  else
    match P4PProtocol.create sys key.optEngineAddr key.optEnginePort with
    | .returned proto () => .returned ⟨proto, key.isp, key.options⟩ ()
    | .threw () => .threw ()
    | .undefined => .undefined

/-! ## The manager -/

/-- `GuidanceMatrixContainers`: the containers at their addresses. -/
abbrev GuidanceMatrixContainers := StdMap Nat GuidanceMatrixContainer

/-- The container of a matrix, and its address. -/
def GuidanceMatrixContainers.search (containers : GuidanceMatrixContainers) (matrix : Nat) :
    Option (Nat × GuidanceMatrixContainer) :=
  containers.toList.find? fun c => c.2.matrix = matrix

/-- `PeeringGuidanceMatrixManager`, with the matrices that are allocated. -/
structure PeeringGuidanceMatrixManager (ISP : Type) where
  matrices : LessMap (GuidanceMatrixKey ISP) GuidanceMatrixContainers := []
  heap : StdMap Nat (PeeringGuidanceMatrix ISP) := ∅

namespace PeeringGuidanceMatrixManager

variable [LinearOrder ISP]

/-- A change of the containers under a key. -/
def modify (m : PeeringGuidanceMatrixManager ISP) (key : GuidanceMatrixKey ISP)
    (f : GuidanceMatrixContainers → GuidanceMatrixContainers) : PeeringGuidanceMatrixManager ISP :=
  { m with matrices := LessMap.modify GuidanceMatrixKey.less f key m.matrices }

/-- The first part of `getGuidanceMatrixNoLock`: if the key is not found, add it. -/
def addKey (m : PeeringGuidanceMatrixManager ISP) (key : GuidanceMatrixKey ISP) :
    PeeringGuidanceMatrixManager ISP :=
  match LessMap.find GuidanceMatrixKey.less m.matrices key with
  | none => { m with matrices := LessMap.add GuidanceMatrixKey.less m.matrices key ∅ }
  | some _ => m

/-- The containers under a key that is in the map. -/
def containers (m : PeeringGuidanceMatrixManager ISP) (key : GuidanceMatrixKey ISP) :
    GuidanceMatrixContainers :=
  (LessMap.find GuidanceMatrixKey.less m.matrices key).getD ∅

/-- The addresses in use. -/
def live (m : PeeringGuidanceMatrixManager ISP) : List Nat :=
  m.heap.keys ++ m.matrices.flatMap fun e => e.2.keys

/-- `PeeringGuidanceMatrixManager::getGuidanceMatrixNoLock`. -/
def getGuidanceMatrix (m : PeeringGuidanceMatrixManager ISP) (sys : System)
    (key : GuidanceMatrixKey ISP) : Outcome (PeeringGuidanceMatrixManager ISP) Nat :=
  let m := m.addKey key
  if key.options.isSwarmDependent || (m.containers key).isEmpty then
    match key.createMatrix sys with
    | .returned object () =>
      let address := sys.alloc m.live
      let matrix := sys.alloc (address :: m.live)
      .returned matrix
        { m.modify key (·.insert address { matrix }) with heap := m.heap.insert matrix object }
    | .threw () => .threw m
    | .undefined => .undefined
  else
    match (m.containers key).toList with
    | [] => .undefined
    | (address, container) :: _ =>
      .returned container.matrix (m.modify key (·.insert address container.incRefCount))

/-- `PeeringGuidanceMatrixManager::releaseGuidanceMatrixNoLock`. A freed matrix must not be read. -/
def releaseGuidanceMatrix (m : PeeringGuidanceMatrixManager ISP) (matrix : Nat) :
    Outcome (PeeringGuidanceMatrixManager ISP) Bool :=
  match m.heap[matrix]? with
  | none => .undefined
  | some object =>
    match (m.containers object.key).search matrix with
    | none => .returned false m
    | some (address, container) =>
      let container := container.decRefCount
      if container.isReferenced then
        .returned true (m.modify object.key (·.insert address container))
      else
        .returned true
          { m.modify object.key (·.erase address) with heap := m.heap.erase container.matrix }

/-- `PeeringGuidanceMatrixManager::addGuidanceMatrixRef`. -/
def addGuidanceMatrixRef (m : PeeringGuidanceMatrixManager ISP) (matrix : Nat) :
    Outcome (PeeringGuidanceMatrixManager ISP) Bool :=
  match m.heap[matrix]? with
  | none => .undefined
  | some object =>
    match (m.containers object.key).search matrix with
    | none => .returned false m
    | some (address, container) =>
      .returned true (m.modify object.key (·.insert address container.incRefCount))

/-- `PeeringGuidanceMatrixManager::setOptions`; `none` is `NULL`. -/
def setOptions (m : PeeringGuidanceMatrixManager ISP) (sys : System) (matrix : Nat)
    (options : PeeringGuidanceMatrixOptions) :
    Outcome (PeeringGuidanceMatrixManager ISP) (Option Nat) :=
  match m.heap[matrix]? with
  | none => .undefined
  | some object =>
    if options.beq object.options then .returned (some matrix) m
    else
      match m.releaseGuidanceMatrix matrix with
      | .returned true m =>
        match m.getGuidanceMatrix sys { object.key with options } with
        | .returned matrix m => .returned (some matrix) m
        | .threw m => .threw m
        | .undefined => .undefined
      | .returned false m => .returned none m
      | .threw m => .threw m
      | .undefined => .undefined

end PeeringGuidanceMatrixManager

end Alto.Guidance
