import Alto.Common.PatriciaTrie

/-!
# The PID map of an ISP

`ISPPIDMap` (`common/cpp/src/lib/isp_pidmap.cpp`), as far as peers are looked up in it. A PID is
known by its index; the PIDs below `m_intraisp_pids` are taken for the internal ones. What a lookup
reads behind an IPv4 address is the parameter `behind`.
-/

namespace Alto

open Lib

/-- `ERR_UNKNOWN_PID`. -/
def errUnknownPID : Int := -1

/-- `p4p::ISPPIDMap`. `intraispPids` is not initialised by the constructors. -/
structure ISPPIDMap where
  trie : PatriciaTrie Int
  pids : List PID
  intraispPids : Nat

namespace ISPPIDMap

/-- `ISPPIDMap::lookup`: the PID index, and the matching prefix where there is one. -/
def lookup (behind : Behind) (map : ISPPIDMap) (addr : IPPrefix) : Int × Option IPPrefix :=
  match map.trie.lookup behind addr with
  | some (matchingPrefix, pid) => (pid, some matchingPrefix)
  | none => (errUnknownPID, none)

/-- `ISPPIDMap::getPIDInfo`. -/
def getPIDInfo (map : ISPPIDMap) (pid : Int) : PID :=
  if pid < 0 then PID.invalid else map.pids[pid.toNat]?.getD PID.invalid

/-- The first output parameter of `ISPPIDMap::getNumPIDs`. -/
def numIntraISPPIDs (map : ISPPIDMap) : Nat := map.intraispPids

/-- The second output parameter of `ISPPIDMap::getNumPIDs`. -/
def numTotalPIDs (map : ISPPIDMap) : Nat := map.pids.length

/-- The tables that `ISPPIDMap::loadP4PInfo` builds from the records of a PID map. -/
def ofPrefixes (behind : Behind) (prefixes : List (PID × List IPPrefix)) : ISPPIDMap where
  trie := prefixes.zipIdx.foldl
    (fun trie x => x.1.2.foldl (fun trie pfx => (trie.add behind pfx (x.2 : Int)).2) trie) .empty
  pids := prefixes.map (·.1)
  intraispPids := (prefixes.filter fun x => !x.1.external).length

end ISPPIDMap

end Alto
