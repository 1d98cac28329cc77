import Alto.Common.PatriciaTrie
import Alto.Portal.AdminTxn
import Alto.Server.NetState
import Alto.Server.PIDAggregation
import Alto.Server.PIDRouting

/-!
# The global state

What `GLOBAL_STATE` holds (`portal/server/src/global_state/global_state.h`): the network state and
the view registry (`portal/server/src/view/view_registry.cpp`), whose children are the views
(`portal/server/src/view/view.cpp`) with six child objects each.
-/

namespace Alto

open Lib

/-- `PIDMap`. -/
abbrev PIDMap := PatriciaTrie PID

/-- `ExtraNodeAction`. -/
inductive ExtraNodeAction where
  | ignore
  | remove
  deriving DecidableEq

/-- The properties of a `View`. A view has a plugin exactly if its `plugin_name_` is not empty. -/
structure View where
  name : String
  pluginName : String
  updateInterval : Nat
  extraNodeAction : ExtraNodeAction
  defaultIntrapidPDistance : Double
  defaultInterpidPDistance : Double
  defaultInterdomainPDistance : Double
  defaultPidlinkPDistance : Double
  interdomainIncludesIntradomain : Bool
  pidTtl : Nat
  pdistanceTtl : Nat
  deriving DecidableEq

/-- The strings and numbers that `boost::lexical_cast` turns into each other; `none` is
`bad_lexical_cast`. -/
structure LexicalCast where
  ofDouble : Double → String
  ofBool : Bool → String
  ofUnsigned : Nat → String
  toDouble : String → Option Double
  toBool : String → Option Bool
  toUnsigned : String → Option Nat

/-- What the portal server runs in: uninitialized memory, the registered plugins, the text
conversions and the pDistance computation. -/
structure Env where
  /-- The bytes behind an IPv4 address. -/
  behind : Behind
  /-- The initial `version_` of an object. -/
  junk : Nat → Nat
  /-- Whether `OptPluginRegistry::get_instance` knows a plugin. -/
  getInstance : String → Bool
  lexicalCast : LexicalCast
  /-- `ViewUpdateBase::compute_result`: the intradomain and the interdomain pDistances, or a failure.
  There is no result if it throws. -/
  computeResult : NetState → View → PIDAggregation → PIDRouting → PIDMatrix →
    Option (Option (PIDMatrix × PIDMatrix))

namespace View

/-- `View::View`. -/
def new (name : String) : View where
  name := name
  pluginName := ""
  updateInterval := 5 * 60
  extraNodeAction := .remove
  defaultIntrapidPDistance := 0
  defaultInterpidPDistance := .infinity
  defaultInterdomainPDistance := 60
  defaultPidlinkPDistance := 1
  interdomainIncludesIntradomain := true
  pidTtl := 7 * 24 * 60 * 60
  pdistanceTtl := 2 * 60 * 60

/-- `View::set_plugin`. -/
def setPlugin (env : Env) (v : View) (name : String) : Bool × View :=
  if v.pluginName = name then (true, v)
  else if name ≠ "" ∧ ¬ env.getInstance name then (false, v)
  else (true, { v with pluginName := name })

/-- `View::do_copy_properties`: the new view is created without a name. -/
def doCopyProperties (env : Env) (v : View) : View :=
  { ((new "").setPlugin env v.pluginName).2 with
    updateInterval := v.updateInterval
    extraNodeAction := v.extraNodeAction
    defaultIntrapidPDistance := v.defaultIntrapidPDistance
    defaultInterpidPDistance := v.defaultInterpidPDistance
    defaultInterdomainPDistance := v.defaultInterdomainPDistance
    defaultPidlinkPDistance := v.defaultPidlinkPDistance
    interdomainIncludesIntradomain := v.interdomainIncludesIntradomain
    pidTtl := v.pidTtl
    pdistanceTtl := v.pdistanceTtl }

end View

/-- What the classes derived from `DistributedObject` store. -/
inductive Payload where
  | globalState
  | netState (net : NetState)
  | viewRegistry (views : StdMap String Nat)
  | view (v : View)
  | aggregation (agg : PIDAggregation)
  | pidMap (m : PIDMap)
  | routing (r : PIDRouting)
  | matrix (m : PIDMatrix)

namespace Payload

/-- `do_copy_properties`: the new object. -/
def copyOf (env : Env) : Payload → Payload
  | globalState => globalState
  | netState net => netState net.doCopyProperties
  | viewRegistry views => viewRegistry views
  | view v => view (v.doCopyProperties env)
  | aggregation agg => aggregation agg.doCopyProperties
  | pidMap m => pidMap (m.copyFrom env.behind)
  | routing r => routing r.doCopyProperties
  | matrix m => matrix m.doCopyProperties

/-- `do_copy_properties`: the object that is copied. -/
def leave : Payload → Payload
  | routing r => routing r.afterCopyProperties
  | x => x

end Payload

/-- The copying of the portal's objects. -/
def Env.copying (env : Env) : Copying Payload := ⟨Payload.copyOf env, Payload.leave, env.junk⟩

/-! ## Child indexes -/

/-- `GlobalState::CHILD_IDX_NET` and `GlobalState::CHILD_IDX_VIEWS`. -/
def netIdx : Nat := 0
def viewsIdx : Nat := 1

/-- The child indexes of a `View`. -/
inductive ViewChild where
  | aggregation
  | prefixes
  | intraRouting
  | linkPDistances
  | intraPDistances
  | interPDistances
  deriving DecidableEq

def ViewChild.idx : ViewChild → Nat
  | aggregation => 0
  | prefixes => 1
  | intraRouting => 2
  | linkPDistances => 3
  | intraPDistances => 4
  | interPDistances => 5

def netPath : Path := [netIdx]
def viewsPath : Path := [viewsIdx]
def viewPath (i : Nat) : Path := i :: viewsPath
def childPath (i : Nat) (c : ViewChild) : Path := c.idx :: viewPath i

/-- `DEFAULT_WEIGHT`. -/
def defaultWeight : Double := 1

/-- The objects that `View::View` creates. -/
def newView (name : String) : NewObj Payload where
  payload := .view (.new name)
  leaves := [.aggregation .empty, .pidMap .empty, .routing (.new defaultWeight), .matrix .empty,
    .matrix .empty, .matrix .empty]

/-! ## Calls on the objects -/

namespace Prog

variable {α : Type}

/-- `boost::dynamic_pointer_cast`. -/
def loadNet (p : Path) : Prog Payload NetState :=
  load p fun
    | .netState net => ret net
    | _ => undef

def loadViews (p : Path) : Prog Payload (StdMap String Nat) :=
  load p fun
    | .viewRegistry views => ret views
    | _ => undef

def loadView (p : Path) : Prog Payload View :=
  load p fun
    | .view v => ret v
    | _ => undef

def loadAggregation (p : Path) : Prog Payload PIDAggregation :=
  load p fun
    | .aggregation agg => ret agg
    | _ => undef

def loadPIDMap (p : Path) : Prog Payload PIDMap :=
  load p fun
    | .pidMap m => ret m
    | _ => undef

def loadRouting (p : Path) : Prog Payload PIDRouting :=
  load p fun
    | .routing r => ret r
    | _ => undef

def loadMatrix (p : Path) : Prog Payload PIDMatrix :=
  load p fun
    | .matrix m => ret m
    | _ => undef

/-- A setter of an object, followed by `changed` if `notify` is set. -/
def put (q : Path) (i : Nat) (x : Payload) (notify : Bool) : Prog Payload Unit :=
  store q i x notify (ret ())

/-- A call that is meant to return a value, but may have no result. -/
def orUndef : Option α → Prog Payload α
  | some x => ret x
  | none => undef

end Prog

namespace ViewRegistry

open Prog

/-- `DEFAULT_VIEW_NAME`. -/
def defaultViewName : String := "DEFAULT"

/-- `ViewRegistry::MAX_VIEWS`. -/
def maxViews : Nat := 256

/-- `DistributedObject::get_child(i)` is not null. -/
def filled (slots : List Bool) (i : Nat) : Bool := (slots[i]?).getD false

/-- The name that `ViewRegistry::get` looks up. -/
def resolveName (name : String) : String := if name ≠ "" then name else defaultViewName

/-- `ViewRegistry::get`: the slot of the view. -/
def get (name : String) : Prog Payload (Option Nat) := do
  let views ← loadViews viewsPath
  match views[resolveName name]? with
  | none => return none
  | some i => slots viewsPath fun s => ret (if filled s i then some i else none)

/-- The first unfilled slot. -/
def freeSlot (slots : List Bool) : Option Nat :=
  (List.range maxViews).find? fun i => !filled slots i

/-- `ViewRegistry::add`. -/
def add (name : String) : Prog Payload Bool :=
  slots viewsPath fun s =>
    match freeSlot s with
    | none => ret false
    | some i => do
      setChild [] viewsIdx i (some (newView name)) (ret ())
      let views ← loadViews viewsPath
      put [] viewsIdx (.viewRegistry (views.insert name i)) true
      return true

/-- `ViewRegistry::remove`. -/
def remove (name : String) : Prog Payload Bool := do
  let views ← loadViews viewsPath
  match views[name]? with
  | none => return false
  | some i => do
    setChild [] viewsIdx i none (ret ())
    put [] viewsIdx (.viewRegistry (views.erase name)) true
    return true

/-- `ViewRegistry::on_update`: the default view is installed if there is no view. -/
def onUpdate : Prog Payload Unit :=
  slots viewsPath fun s =>
    if s.any id then ret ()
    else do
      if ← add defaultViewName then return () else undef

end ViewRegistry

/-- `ViewUpdateDirect::do_update` and `ViewUpdateUpgrade::do_update`
(`portal/server/src/view/view_update.cpp`) on the view in a slot: the update interval of the view,
or 0 if the computation fails. -/
def doUpdate (env : Env) (i : Nat) : Prog Payload Nat := do
  let net ← Prog.loadNet netPath
  let v ← Prog.loadView (viewPath i)
  let agg ← Prog.loadAggregation (childPath i .aggregation)
  let r ← Prog.loadRouting (childPath i .intraRouting)
  let link ← Prog.loadMatrix (childPath i .linkPDistances)
  match ← Prog.orUndef (env.computeResult net v agg r link) with
  | none => return 0
  | some (intra, inter) => do
    Prog.setChild viewsPath i ViewChild.intraPDistances.idx (some ⟨.matrix intra, []⟩) (.ret ())
    Prog.setChild viewsPath i ViewChild.interPDistances.idx (some ⟨.matrix inter, []⟩) (.ret ())
    return v.updateInterval

end Alto
