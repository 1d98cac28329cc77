import Alto.Common.Prefix
import Alto.Lib.StdMap

/-!
# PID aggregations

`PIDAggregation` (`common-server/src/include/p4pserver/pid_aggregation.h`,
`common-server/src/lib/pid_aggregation.cpp`).
-/

namespace Alto

open Lib

/-- `PIDAggregation::PIDRecord`, without the PID under which it is stored. -/
structure PIDRecord where
  name : String
  vertices : StdSet String
  deriving DecidableEq

/-- `PIDAggregation::PIDRecords`: a container with two unique indexes, by PID and by name. -/
structure PIDRecords where
  byPid : StdMap PID PIDRecord
  uniqueName : ∀ (p q : PID) (r s : PIDRecord), byPid[p]? = some r → byPid[q]? = some s →
    r.name = s.name → p = q
  deriving DecidableEq

/-- `PIDAggregation::LinkRecord`, without the name under which it is stored. -/
structure LinkRecord where
  src : PID
  dst : PID
  deriving DecidableEq

/-- `PIDAggregation`. -/
structure PIDAggregation where
  pidRecords : PIDRecords
  linkRecords : StdMap String LinkRecord
  deriving DecidableEq

namespace PIDRecords

/-- No records. -/
def empty : PIDRecords := ⟨∅, by simp⟩

/-- `pid_records_by_name_.find(name)`. -/
def findName (rs : PIDRecords) (name : String) : Option PID :=
  (rs.byPid.toList.find? (·.2.name = name)).map (·.1)

theorem findName_eq_some {rs : PIDRecords} {name : String} {pid : PID} :
    rs.findName name = some pid ↔ ∃ r, rs.byPid[pid]? = some r ∧ r.name = name := by
  constructor
  · intro h
    obtain ⟨⟨p, r⟩, hf, rfl⟩ := Option.map_eq_some_iff.1 h
    exact ⟨r, Std.ExtTreeMap.mem_toList_iff_getElem?_eq_some.1 (List.mem_of_find?_eq_some hf),
      by simpa using List.find?_some hf⟩
  · rintro ⟨r, hr, rfl⟩
    have hmem := Std.ExtTreeMap.mem_toList_iff_getElem?_eq_some.2 hr
    obtain ⟨⟨q, s⟩, hq⟩ := Option.isSome_iff_exists.1
      (List.find?_isSome (p := fun x : PID × PIDRecord => decide (x.2.name = r.name)).2
        ⟨_, hmem, by simp⟩)
    have hs := Std.ExtTreeMap.mem_toList_iff_getElem?_eq_some.1 (List.mem_of_find?_eq_some hq)
    have hname : s.name = r.name := by simpa using List.find?_some hq
    rw [findName, hq, Option.map_some, rs.uniqueName q pid s r hs hr hname]

theorem findName_eq_none {rs : PIDRecords} {name : String} :
    rs.findName name = none ↔ ∀ (p : PID) (r : PIDRecord), rs.byPid[p]? = some r →
      r.name ≠ name := by
  rw [Option.eq_none_iff_forall_ne_some]
  constructor
  · intro h p r hr hn
    exact h p (findName_eq_some.2 ⟨r, hr, hn⟩)
  · intro h p hp
    obtain ⟨r, hr, hn⟩ := findName_eq_some.1 hp
    exact h p r hr hn

/-- `pid_records_.insert(r)`: the container takes no second record with the PID or the name. -/
def insert (rs : PIDRecords) (pid : PID) (r : PIDRecord) : PIDRecords :=
  if h : rs.byPid[pid]? = none ∧ rs.findName r.name = none then
    ⟨rs.byPid.insert pid r, by
      intro p q s t hp hq hname
      rw [StdMap.get_insert] at hp hq
      split at hp <;> split at hq
      · simp_all
      · cases hp
        exact absurd hname.symm (findName_eq_none.1 h.2 q t hq)
      · cases hq
        exact absurd hname (findName_eq_none.1 h.2 p s hp)
      · exact rs.uniqueName p q s t hp hq hname⟩
  else rs

/-- `pid_records_by_pid_.erase(itr)`. -/
def erase (rs : PIDRecords) (pid : PID) : PIDRecords :=
  ⟨rs.byPid.erase pid, by
    intro p q s t hp hq hname
    rw [StdMap.get_erase] at hp hq
    split at hp
    · cases hp
    · split at hq
      · cases hq
      · exact rs.uniqueName p q s t hp hq hname⟩

end PIDRecords

namespace PIDAggregation

/-- A new aggregation. -/
def empty : PIDAggregation := ⟨.empty, ∅⟩

/-- `PIDAggregation::do_copy_properties`: the link records are not copied. -/
def doCopyProperties (agg : PIDAggregation) : PIDAggregation :=
  { empty with pidRecords := agg.pidRecords }

/-- `PIDAggregation::has(pid)`. -/
def has (agg : PIDAggregation) (pid : PID) : Bool := (agg.pidRecords.byPid[pid]?).isSome

/-- `PIDAggregation::has(name)`. -/
def hasName (agg : PIDAggregation) (name : String) : Bool := (agg.pidRecords.findName name).isSome

/-- `PIDAggregation::lookup`. -/
def lookup (agg : PIDAggregation) (name : String) : PID :=
  (agg.pidRecords.findName name).getD PID.invalid

/-- `PIDAggregation::reverse_lookup`. -/
def reverseLookup (agg : PIDAggregation) (pid : PID) : Option String :=
  (agg.pidRecords.byPid[pid]?).map (·.name)

/-- `PIDAggregation::add`. -/
def add (agg : PIDAggregation) (name : String) (pid : PID) (vertices : StdSet String) :
    Bool × PIDAggregation :=
  if agg.has pid then (false, agg)
  else if agg.hasName name then (false, agg)
  else (true, { agg with pidRecords := agg.pidRecords.insert pid ⟨name, vertices⟩ })

/-- `PIDAggregation::remove`: the links with this PID go too. -/
def remove (agg : PIDAggregation) (pid : PID) : Bool × PIDAggregation :=
  if agg.has pid then
    (true, ⟨agg.pidRecords.erase pid,
      (agg.linkRecords.filter fun _ l => l.src ≠ pid).filter fun _ l => l.dst ≠ pid⟩)
  else (false, agg)

/-- Replace the record of a PID by one with other vertices. -/
def updateVertices (agg : PIDAggregation) (pid : PID) (f : StdSet String → StdSet String) :
    Bool × PIDAggregation :=
  match agg.pidRecords.byPid[pid]? with
  | none => (false, agg)
  | some r =>
    (true, { agg with
      pidRecords := (agg.pidRecords.erase pid).insert pid ⟨r.name, f r.vertices⟩ })

/-- `PIDAggregation::add_vertices`. -/
def addVertices (agg : PIDAggregation) (pid : PID) (vertices : StdSet String) :
    Bool × PIDAggregation :=
  agg.updateVertices pid fun vs => vertices.toList.foldl (fun s v => s.insert v) vs

/-- `PIDAggregation::remove_vertices`. -/
def removeVertices (agg : PIDAggregation) (pid : PID) (vertices : StdSet String) :
    Bool × PIDAggregation :=
  agg.updateVertices pid fun vs => vertices.toList.foldl (fun s v => s.erase v) vs

/-- `PIDAggregation::clear_vertices`. -/
def clearVertices (agg : PIDAggregation) (pid : PID) : Bool × PIDAggregation :=
  agg.updateVertices pid fun _ => ∅

/-- `PIDAggregation::define_link`. -/
def defineLink (agg : PIDAggregation) (name : String) (src dst : PID) : Bool × PIDAggregation :=
  match agg.linkRecords[name]? with
  | some _ => (false, agg)
  | none => (true, { agg with linkRecords := agg.linkRecords.insert name ⟨src, dst⟩ })

/-- `PIDAggregation::undefine_link`. -/
def undefineLink (agg : PIDAggregation) (name : String) : Bool × PIDAggregation :=
  match agg.linkRecords[name]? with
  | none => (false, agg)
  | some _ => (true, { agg with linkRecords := agg.linkRecords.erase name })

/-- `PIDAggregation::get_link(name)`. -/
def getLink (agg : PIDAggregation) (name : String) : Option (PID × PID) :=
  (agg.linkRecords[name]?).map fun l => (l.src, l.dst)

end PIDAggregation

end Alto
