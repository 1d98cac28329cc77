import Alto.Lib.Loops
import Alto.Portal.AltoRequests
import Alto.Verify.AltoServices

/-!
# Every ALTO request is answered

A handler answers if no lock fails, or if it catches that one has failed; if all endpoints can be
stripped; and if it follows no null pointer. A part of a handler that only computes is related to an
`Option` (`Yields`), so that what it computes can be taken from `AltoHandlers`.
-/

namespace Alto.Portal

open Lib

variable {T A B F : Type}

/-! ## The rules of handlers -/

namespace Handler

@[simp] theorem pure_apply (value : A) (state : Answering T) :
    (pure value : Handler T A) state = .returned value state :=
  rfl

theorem bind_apply (p : Handler T A) (f : A → Handler T B) (state : Answering T) :
    (p >>= f) state = andThen f (p state) :=
  rfl

@[simp] theorem andThen_returned (f : A → Handler T B) (value : A) (state : Answering T) :
    andThen f (.returned value state) = f value state :=
  rfl

/-- There is a value and the state is as it was, or something went wrong. -/
def Leaves (state : Answering T) : Option A → Ending T A → Prop
  | some value, ending => ending = .returned value state
  | none, ending => ending = .undefined ∨ ending = .threw .outOfRange state

/-- A part of a handler that only computes. -/
def Yields (p : Handler T A) (result : Option A) : Prop := ∀ state, Leaves state result (p state)

theorem Yields.pure (value : A) : Yields (T := T) (pure value) (some value) := fun _ => rfl

theorem Yields.undefined : Yields (T := T) (undefined : Handler T A) none := fun _ => .inl rfl

theorem Yields.ofOption (result : Option A) :
    Yields (T := T) (ofOption .outOfRange result) result := by
  intro state
  cases result with
  | none => exact .inr rfl
  | some value => rfl

theorem Yields.bind {p : Handler T A} {result : Option A} {f : A → Handler T B}
    {g : A → Option B} (hp : Yields p result) (hf : ∀ value, Yields (f value) (g value)) :
    Yields (p >>= f) (result.bind g) := by
  intro state
  cases result with
  | none => exact (hp state).imp (congrArg (andThen f)) (congrArg (andThen f))
  | some value =>
    have hrun : (p >>= f) state = f value state := congrArg (andThen f) (hp state)
    rw [Option.bind_some, hrun]
    exact hf value state

theorem Yields.foldlM {f : B → A → Handler T B} {g : B → A → Option B}
    (hf : ∀ b a, Yields (f b a) (g b a)) (l : List A) (b : B) :
    Yields (l.foldlM f b) (l.foldlM g b) := by
  induction l generalizing b with
  | nil => exact .pure b
  | cons a l ih =>
    rw [List.foldlM_cons, List.foldlM_cons]
    exact (hf b a).bind ih

end Handler

open Handler

/-! ## Locks -/

/-- The attempts of a callback to lock an object, if they all succeed. -/
def Scene.attempts (scene : Scene) (locks : Nat) : Nat :=
  if scene.view.isSome then 2 + locks else 2

/-- No attempt fails. -/
def Scene.Unlocked (scene : Scene) (locks : Nat) : Prop :=
  ∀ i < scene.attempts locks, scene.granted i = true

instance (scene : Scene) (locks : Nat) : Decidable (scene.Unlocked locks) :=
  inferInstanceAs (Decidable (∀ i < _, _))

theorem tryReadLocks_cases (scene : Scene) (n : Nat) (state : Answering T) :
    ((∀ i < n, scene.granted (state.attempts + i) = true) ∧
      tryReadLocks scene n state = .returned () { state with attempts := state.attempts + n }) ∨
    ((∃ i < n, scene.granted (state.attempts + i) = false) ∧
      ∃ k, tryReadLocks scene n state = .threw .tryLockFailed { state with attempts := k }) := by
  induction n generalizing state with
  | zero => exact .inl ⟨nofun, rfl⟩
  | succ n ih =>
    unfold tryReadLocks
    rw [bind_apply]
    unfold tryReadLock
    cases hgranted : scene.granted state.attempts with
    | false => exact .inr ⟨⟨0, Nat.succ_pos n, hgranted⟩, _, rfl⟩
    | true =>
      have hnext := ih { state with attempts := state.attempts + 1 }
      have hshift : ∀ i, state.attempts + 1 + i = state.attempts + (i + 1) := fun i => by omega
      simp only [hshift] at hnext
      simp only [if_true, andThen_returned]
      refine hnext.imp (fun ⟨hall, hrun⟩ => ⟨fun i hi => ?_, ?_⟩) fun ⟨⟨i, hi, hfails⟩, hrun⟩ => ?_
      · cases i with
        | zero => exact hgranted
        | succ i => exact hall i (by omega)
      · exact hrun
      · exact ⟨⟨i + 1, by omega, hfails⟩, hrun⟩

/-- How the common `try` block ends. -/
inductive Viewed (scene : Scene) (locks : Nat) (caught : Thrown) (result : ViewState → Option A)
    (state : Answering T) : Ending T (Option A) → Prop
  | failed (hlocked : ¬ scene.Unlocked locks) (hcaught : caught = .tryLockFailed) (k : Nat) :
    Viewed scene locks caught result state
      (.returned none { state with attempts := k, responses := state.responses ++ [.empty 500] })
  | escaped (hlocked : ¬ scene.Unlocked locks) (hcaught : caught ≠ .tryLockFailed) (k : Nat) :
    Viewed scene locks caught result state (.threw .tryLockFailed { state with attempts := k })
  | missing (hunlocked : scene.Unlocked locks) (hview : scene.view = none) (k : Nat) :
    Viewed scene locks caught result state (.returned none
      { state with attempts := k, responses := state.responses ++ [.error .serviceUnavailable] })
  | read {view : ViewState} {value : A} (hunlocked : scene.Unlocked locks)
    (hview : scene.view = some view) (hvalue : result view = some value) (k : Nat) :
    Viewed scene locks caught result state (.returned (some value) { state with attempts := k })
  | threw {view : ViewState} (hunlocked : scene.Unlocked locks) (hview : scene.view = some view)
    (hnone : result view = none) (k : Nat) :
    Viewed scene locks caught result state (.threw .outOfRange { state with attempts := k })
  | undefined {view : ViewState} (hunlocked : scene.Unlocked locks) (hview : scene.view = some view)
    (hnone : result view = none) : Viewed scene locks caught result state .undefined

theorem withView_viewed (scene : Scene) (locks : Nat) {caught : Thrown} (hcaught : caught ≠ .outOfRange)
    {read : ViewState → Handler T A} {result : ViewState → Option A}
    (hread : ∀ view, Yields (read view) (result view)) {state : Answering T}
    (hstart : state.attempts = 0) :
    Viewed scene locks caught result state (withView locks caught scene read state) := by
  have hlocked : ∀ k, ¬ scene.Unlocked locks →
      Viewed (A := A) scene locks caught result state
        (if Thrown.tryLockFailed = caught then .returned none
          { state with attempts := k, responses := state.responses ++ [.empty 500] }
        else .threw .tryLockFailed { state with attempts := k }) := by
    intro k h
    split
    · next hfail => exact .failed h hfail.symm k
    · next hfail => exact .escaped h (Ne.symm hfail) k
  rcases tryReadLocks_cases scene 2 state with ⟨hall, hglobal⟩ | ⟨⟨i, hi, hfails⟩, k, hglobal⟩
  · rw [hstart] at hall
    simp only [withView, catching, globalView, bind_apply, hglobal, andThen_returned, pure_apply]
    cases hview : scene.view with
    | none =>
      have hunlocked : scene.Unlocked locks := by
        intro i hi
        rw [Scene.attempts, hview] at hi
        exact (Nat.zero_add i) ▸ hall i hi
      exact .missing hunlocked hview _
    | some view =>
      have hattempts : scene.attempts locks = 2 + locks := by rw [Scene.attempts, hview]; rfl
      rcases tryReadLocks_cases scene locks { state with attempts := state.attempts + 2 } with
        ⟨hrest, hview'⟩ | ⟨⟨i, hi, hfails⟩, k, hview'⟩
      · have hunlocked : scene.Unlocked locks := by
          intro i hi
          rw [hattempts] at hi
          rcases Nat.lt_or_ge i 2 with hlt | hge
          · exact (Nat.zero_add i) ▸ hall i hlt
          · have hi' := hrest (i - 2) (by omega)
            simp only [hstart] at hi'
            rwa [show 0 + 2 + (i - 2) = i by omega] at hi'
        simp only [bind_apply, hview', andThen_returned]
        have hvalue := hread view { state with attempts := state.attempts + 2 + locks }
        cases hresult : result view with
        | some value =>
          rw [hresult] at hvalue
          rw [hvalue]
          exact .read hunlocked hview hresult _
        | none =>
          rw [hresult] at hvalue
          rcases hvalue with hvalue | hvalue
          · rw [hvalue]
            exact .undefined hunlocked hview hresult
          · rw [hvalue]
            simp only [andThen, if_neg hcaught.symm]
            exact .threw hunlocked hview hresult _
      · simp only [bind_apply, hview', andThen]
        refine hlocked k fun hunlocked => ?_
        have hi' := hunlocked (2 + i) (by omega)
        simp only [hstart] at hfails
        rw [show 0 + 2 + i = 2 + i by omega] at hfails
        rw [hfails] at hi'
        cases hi'
  · simp only [withView, catching, globalView, bind_apply, hglobal, andThen]
    refine hlocked k fun hunlocked => ?_
    have hle : 2 ≤ scene.attempts locks := by
      unfold Scene.attempts
      split <;> omega
    rw [hstart, Nat.zero_add, hunlocked i (hi.trans_le hle)] at hfails
    cases hfails

/-- The callbacks have returned. -/
def Ending.returns : Ending T A → Bool
  | .returned _ _ => true
  | .threw _ _ => false
  | .undefined => false

/-! ## Answers -/

/-- Data with this property, an ALTO error, or the status 500. -/
def Reply.Proper (P : T → Prop) : Reply T → Prop
  | .callback data => ∃ value, data = some value ∧ P value
  | .error _ => True
  | .empty status => status = 500

/-- The callbacks have returned, and exactly one response has been set. -/
def Ending.Answered (P : T → Prop) : Ending T Unit → Prop
  | .returned _ state => ∃ response, state.responses = [response] ∧ response.Proper P
  | .threw _ _ => False
  | .undefined => False

theorem Ending.Answered.returns {P : T → Prop} {ending : Ending T Unit} (h : ending.Answered P) :
    ending.returns = true := by
  cases ending with
  | returned value state => rfl
  | threw thrown state => cases h
  | undefined => cases h

namespace RESTHandler

variable {P : T → Prop} {scene : Scene} {state : Answering T} {locks : Nat} {caught : Thrown}

theorem answered_replyError (code : ALTOErrorCode) (hnone : state.responses = []) :
    (replyError code state).Answered P :=
  ⟨.error code, congrArg (· ++ [_]) hnone, trivial⟩

/-- A handler that responds with what it has read from the view. -/
theorem answered_withView (hcaught : caught ≠ .outOfRange) {read : ViewState → Handler T T}
    {result : ViewState → Option T} (hread : ∀ view, Yields (read view) (result view))
    (hstart : state.attempts = 0) (hnone : state.responses = []) :
    ((withView locks caught scene read >>= respond) state).Answered P ↔
      (scene.Unlocked locks ∨ caught = .tryLockFailed) ∧
        (scene.Unlocked locks → ∀ view, scene.view = some view →
          ∃ value, result view = some value ∧ P value) := by
  have hviewed := withView_viewed scene locks hcaught hread hstart
  rw [bind_apply]
  generalize withView locks caught scene read state = ending at hviewed
  cases hviewed with
  | failed hlocked hcaught k =>
    exact iff_of_true ⟨.empty 500, congrArg (· ++ [_]) hnone, rfl⟩ ⟨.inr hcaught, (absurd · hlocked)⟩
  | escaped hlocked hcaught k => exact iff_of_false id fun h => h.1.elim hlocked hcaught
  | missing hunlocked hview k =>
    refine iff_of_true ⟨.error _, congrArg (· ++ [_]) hnone, trivial⟩ ⟨.inl hunlocked, ?_⟩
    intro _ view hsome
    rw [hview] at hsome
    cases hsome
  | @read view value hunlocked hview hvalue k =>
    constructor
    · rintro ⟨response, hresponse, hproper⟩
      obtain rfl : .callback (some value) = response :=
        (List.cons.inj ((congrArg (· ++ [_]) hnone).symm.trans hresponse)).1
      obtain ⟨value', heq, hP⟩ := hproper
      obtain rfl := Option.some.inj heq
      refine ⟨.inl hunlocked, fun _ view' hview' => ?_⟩
      obtain rfl := Option.some.inj (hview.symm.trans hview')
      exact ⟨value, hvalue, hP⟩
    · rintro ⟨-, h⟩
      obtain ⟨value', hvalue', hP⟩ := h hunlocked view hview
      obtain rfl := Option.some.inj (hvalue.symm.trans hvalue')
      exact ⟨.callback (some value), congrArg (· ++ [_]) hnone, value, rfl, hP⟩
  | @threw view hunlocked hview hresult k =>
    refine iff_of_false id fun h => ?_
    obtain ⟨value, hvalue, -⟩ := h.2 hunlocked view hview
    rw [hresult] at hvalue
    cases hvalue
  | @undefined view hunlocked hview hresult =>
    refine iff_of_false id fun h => ?_
    obtain ⟨value, hvalue, -⟩ := h.2 hunlocked view hview
    rw [hresult] at hvalue
    cases hvalue

/-- The checks of the cost mode and the cost type. -/
theorem answered_withCost {costMode costType : String} {finish : Handler T Unit}
    (hnone : state.responses = []) :
    (withCost costMode costType finish state).Answered P ↔
      (costMode ∈ costModeSet → costType ∈ costTypeSet → (finish state).Answered P) := by
  unfold withCost
  split
  · next hmode => exact iff_of_true (answered_replyError _ hnone) (absurd · hmode)
  split
  · next htype => exact iff_of_true (answered_replyError _ hnone) fun _ => (absurd · htype)
  next hmode htype =>
  exact ⟨fun h _ _ => h, fun h => h (not_not.1 hmode) (not_not.1 htype)⟩

/-! ## The server -/

theorem unlessAnswered_nil (callback : Handler T Unit) (hnone : state.responses = []) :
    unlessAnswered callback state = callback { state with attempts := 0 } := by
  rw [unlessAnswered, hnone]
  rfl

theorem unlessAnswered_of_ne (callback : Handler T Unit) (hne : state.responses ≠ []) :
    unlessAnswered callback state = .returned () state := by
  unfold unlessAnswered
  exact if_neg fun h => hne (List.isEmpty_iff.1 h)

/-- Nothing is done for a request that has been answered. -/
theorem serve_of_ne (process finish : Scene → Handler T Unit) (scenes : List Scene) (last : Scene)
    (hne : state.responses ≠ []) : serve process finish scenes last state = .returned () state := by
  induction scenes with
  | nil =>
    unfold serve
    rw [bind_apply, unlessAnswered_of_ne _ hne, andThen_returned, unlessAnswered_of_ne _ hne]
  | cons scene scenes ih =>
    unfold serve
    rw [bind_apply, unlessAnswered_of_ne _ hne, andThen_returned, ih]

/-- A handler that works in its finish callback. -/
theorem serve_noProcess (finish : Scene → Handler T Unit) (scenes : List Scene) (last : Scene)
    (hstart : state.attempts = 0) (hnone : state.responses = []) :
    serve noProcess finish scenes last state = finish last state := by
  have hstate : { state with attempts := 0 } = state := by
    rw [← hstart]
  have hprocess : ∀ scene, unlessAnswered (noProcess scene) state = .returned () state := by
    intro scene
    rw [unlessAnswered_nil _ hnone, hstate]
    rfl
  induction scenes with
  | nil =>
    unfold serve
    rw [bind_apply, hprocess, andThen_returned, unlessAnswered_nil _ hnone, hstate]
  | cons scene scenes ih =>
    unfold serve
    rw [bind_apply, hprocess, andThen_returned, ih]

/-! ## Network maps -/

/-- No attempt of `GetNetMapProcess` fails, up to the call that comes upon no view. -/
def NetMapUnlocked : List Scene → Scene → Prop
  | [], last => last.Unlocked netMapLocks
  | scene :: scenes, last =>
    scene.Unlocked netMapLocks ∧ (scene.view = none ∨ NetMapUnlocked scenes last)

/-- A call that has the network map made. -/
theorem netMapCall_cases (net : AddressText) (scene : Scene) {state : Answering NetworkMapData}
    (hnone : state.responses = []) :
    (¬ scene.Unlocked netMapLocks ∧ ∃ state',
      unlessAnswered (getNetMapProcess net scene) state = .threw .tryLockFailed state') ∨
    (scene.Unlocked netMapLocks ∧ scene.view = none ∧ ∃ state',
      unlessAnswered (getNetMapProcess net scene) state = .returned () state' ∧
        state'.responses = [.error .serviceUnavailable]) ∨
    (scene.Unlocked netMapLocks ∧ scene.view ≠ none ∧ ∃ state' netmap,
      unlessAnswered (getNetMapProcess net scene) state = .returned () state' ∧
        state'.responses = [] ∧ state'.data = some netmap) := by
  have hcaught : Thrown.tryReadLock ≠ .outOfRange := nofun
  have hstart : ({ state with attempts := 0 } : Answering NetworkMapData).attempts = 0 := rfl
  have hviewed := withView_viewed scene netMapLocks hcaught (fun view =>
    Yields.pure ((view.prefixes.enumerate []).foldl (netMapTurn net view) {}).commit) hstart
  rw [unlessAnswered_nil _ hnone]
  unfold getNetMapProcess
  rw [bind_apply]
  generalize withView netMapLocks .tryReadLock scene _ _ = ending at hviewed
  cases hviewed with
  | failed _ hcaught => cases hcaught
  | escaped hlocked _ k => exact .inl ⟨hlocked, _, rfl⟩
  | missing hunlocked hview k =>
    exact .inr (.inl ⟨hunlocked, hview, _, rfl, congrArg (· ++ [_]) hnone⟩)
  | read hunlocked hview hvalue k =>
    exact .inr (.inr ⟨hunlocked, by rw [hview]; nofun, _, _, rfl, hnone, rfl⟩)
  | threw _ _ hresult => cases hresult
  | undefined _ _ hresult => cases hresult

/-- The requests for the network map. -/
theorem answered_netMap (net : AddressText) (scenes : List Scene) (last : Scene)
    {state : Answering NetworkMapData} (hnone : state.responses = []) :
    (serve (getNetMapProcess net) (fun _ => getNetMapFinish) scenes last state).Answered
        (fun _ => True) ↔ NetMapUnlocked scenes last := by
  have hne : ∀ {state' : Answering NetworkMapData} {response},
      state'.responses = [response] → state'.responses ≠ [] := by
    intro state' response h
    rw [h]
    exact List.cons_ne_nil _ _
  induction scenes generalizing state with
  | nil =>
    unfold serve NetMapUnlocked
    rw [bind_apply]
    rcases netMapCall_cases net last hnone with ⟨hlocked, state', hrun⟩ |
      ⟨hunlocked, -, state', hrun, herror⟩ | ⟨hunlocked, -, state', netmap, hrun, hnone, hdata⟩
    · rw [hrun]
      exact iff_of_false id hlocked
    · rw [hrun, andThen_returned, unlessAnswered_of_ne _ (hne herror)]
      exact iff_of_true ⟨_, herror, trivial⟩ hunlocked
    · rw [hrun, andThen_returned, unlessAnswered_nil _ hnone]
      exact iff_of_true ⟨.callback _, congrArg (· ++ [_]) hnone, netmap, hdata, trivial⟩ hunlocked
  | cons scene scenes ih =>
    unfold serve NetMapUnlocked
    rw [bind_apply]
    rcases netMapCall_cases net scene hnone with ⟨hlocked, state', hrun⟩ |
      ⟨hunlocked, hview, state', hrun, herror⟩ | ⟨hunlocked, hview, state', netmap, hrun, hnone, -⟩
    · rw [hrun]
      exact iff_of_false id fun h => hlocked h.1
    · rw [hrun, andThen_returned, serve_of_ne _ _ _ _ (hne herror)]
      exact iff_of_true ⟨_, herror, trivial⟩ ⟨hunlocked, .inl hview⟩
    · rw [hrun, andThen_returned, and_iff_right hunlocked, or_iff_right hview]
      exact ih hnone

/-! ## Endpoints -/

/-- `StripIP` returns. -/
def Strips (endPoint : String) : Prop := (PostFilter.stripIP endPoint.toList).isSome = true

section EndPoints

variable {net : AddressText} {behind : Behind} {view : ViewState}

theorem endPointTurn_isSome {type : String} (epp : EndPointsProperty) (endPoint : String) :
    (endPointTurn net behind view type epp endPoint).isSome = true ↔ Strips endPoint := by
  unfold endPointTurn Strips
  cases PostFilter.stripIP endPoint.toList with
  | none => rfl
  | some ip =>
    refine iff_of_true ?_ rfl
    simp only [Option.bind_eq_bind, Option.bind_some]
    split <;> rfl

theorem yields_lookup (endPoint : String) :
    Yields (T := T) (lookup net behind view endPoint)
      ((PostFilter.stripIP endPoint.toList).map (view.lookup net behind)) := by
  have h := (Yields.ofOption (T := T) (PostFilter.stripIP endPoint.toList)).bind fun ip =>
    Yields.pure (view.lookup net behind ip)
  rw [Option.map_eq_bind]
  exact h

theorem yields_deref (pid : Option PID) : Yields (T := T) (deref pid) pid := by
  cases pid with
  | none => exact .undefined
  | some pid => exact .pure pid

/-- The costs after a turn between end points with these PIDs. -/
def turnResult (view : ViewState) (costMode : String) (test : Double → Bool) (src : String)
    (epcost : CostMatrix) (dst : String) (p q : PID) : Option CostMatrix :=
  match view.cost costMode p q with
  | none => some epcost
  | some cost => some (if test cost then epcost.addCost src dst cost else epcost)

/-- A turn computes what it computes without a state, and goes wrong where that does. -/
theorem yields_endPointCostTurn {costMode : String} {test : Double → Bool} {src : String}
    {srcPid : Option PID} (epcost : CostMatrix) (dst : String) :
    Yields (T := T) (endPointCostTurn net behind view costMode test src srcPid epcost dst)
      (Portal.endPointCostTurn net behind view costMode test src srcPid epcost dst) := by
  have hturn : Portal.endPointCostTurn net behind view costMode test src srcPid epcost dst =
      ((PostFilter.stripIP dst.toList).map (view.lookup net behind)).bind fun dstPid =>
        srcPid.bind fun p => dstPid.bind fun q =>
          turnResult view costMode test src epcost dst p q := by
    unfold Portal.endPointCostTurn
    cases PostFilter.stripIP dst.toList <;> rfl
  rw [hturn]
  refine (yields_lookup dst).bind fun dstPid => (yields_deref srcPid).bind fun p =>
    (yields_deref dstPid).bind fun q => ?_
  unfold turnResult
  cases view.cost costMode p q with
  | none => exact .pure _
  | some cost => exact .pure _

theorem yields_endPointCostLoop {costMode : String} {test : Double → Bool} (srcs dsts : StdSet String) :
    Yields (T := T) (endPointCostLoop net behind view costMode test srcs dsts)
      (Portal.endPointCostLoop net behind view costMode test srcs dsts) := by
  unfold endPointCostLoop Portal.endPointCostLoop
  refine Yields.foldlM (fun epcost src => ?_) _ _
  have hsrc : (do
      let srcIp ← PostFilter.stripIP src.toList
      dsts.toList.foldlM (Portal.endPointCostTurn net behind view costMode test src
        (view.lookup net behind srcIp)) epcost) =
      ((PostFilter.stripIP src.toList).map (view.lookup net behind)).bind fun srcPid =>
        dsts.toList.foldlM (Portal.endPointCostTurn net behind view costMode test src srcPid)
          epcost := by
    cases PostFilter.stripIP src.toList <;> rfl
  rw [hsrc]
  exact (yields_lookup src).bind fun srcPid =>
    Yields.foldlM yields_endPointCostTurn _ _

theorem endPointCostTurn_isSome {costMode : String} {test : Double → Bool} {src : String}
    {srcPid : Option PID} (epcost : CostMatrix) (dst : String) :
    (Portal.endPointCostTurn net behind view costMode test src srcPid epcost dst).isSome = true ↔
      srcPid.isSome = true ∧ (endPointPid net behind view dst).isSome = true := by
  unfold Portal.endPointCostTurn endPointPid
  cases PostFilter.stripIP dst.toList with
  | none => exact iff_of_false nofun fun h => absurd h.2 nofun
  | some ip =>
    cases srcPid with
    | none => exact iff_of_false nofun fun h => absurd h.1 nofun
    | some p =>
      simp only [Option.bind_eq_bind, Option.bind_some, Option.isSome_some, true_and]
      cases view.lookup net behind ip with
      | none => exact Iff.rfl
      | some q =>
        simp only [Option.bind_some]
        cases view.cost costMode p q <;> exact Iff.rfl

/-- Every source can be stripped, and every endpoint of a pair has a PID. -/
theorem endPointCostLoop_isSome (costMode : String) (test : Double → Bool)
    {srcs dsts : StdSet String} :
    (Portal.endPointCostLoop net behind view costMode test srcs dsts).isSome = true ↔
      ∀ src ∈ srcs, Strips src ∧ ∀ dst ∈ dsts,
        (endPointPid net behind view src).isSome = true ∧
          (endPointPid net behind view dst).isSome = true := by
  unfold Portal.endPointCostLoop
  refine (isSome_foldlM (P := fun src => Strips src ∧ ∀ dst ∈ dsts.toList,
    (endPointPid net behind view src).isSome = true ∧
      (endPointPid net behind view dst).isSome = true) (fun epcost src => ?_) _ _).trans ?_
  · unfold Strips
    cases hstrip : PostFilter.stripIP src.toList with
    | none => exact iff_of_false nofun fun h => absurd h.1 nofun
    | some ip =>
      have hpid : endPointPid net behind view src = view.lookup net behind ip := by
        rw [endPointPid, hstrip, Option.bind_some]
      rw [hpid]
      exact (isSome_foldlM (fun epcost dst => endPointCostTurn_isSome epcost dst) _ _).trans
        (and_iff_right rfl).symm
  · simp only [Std.ExtTreeSet.mem_toList]

/-- The entries of endpoints that have a PID. -/
def HavePids (net : AddressText) (behind : Behind) (view : ViewState) (epp : EndPointsProperty) :
    Prop :=
  ∀ endPoint name, epp[endPoint]? = some name → (endPointPid net behind view endPoint).isSome = true

/-- The entries of pairs of endpoints that have PIDs. -/
def PairsHavePids (net : AddressText) (behind : Behind) (view : ViewState)
    (entry : String → String → Option Double) : Prop :=
  ∀ src dst cost, entry src dst = some cost →
    (endPointPid net behind view src).isSome = true ∧
      (endPointPid net behind view dst).isSome = true

/-- Endpoints without a PID are skipped. -/
theorem havePids_of_loop {l : List String} {epp : EndPointsProperty}
    (h : l.foldlM (endPointTurn net behind view "pid") ∅ = some epp) : HavePids net behind view epp := by
  intro endPoint name hget
  rw [get_foldlM_endPointTurn h] at hget
  cases hpid : endPointPid net behind view endPoint with
  | none => simp [hpid] at hget
  | some pid => rfl

theorem pairsHavePids_endPointCostLoop {costMode : String} {test : Double → Bool}
    {srcs dsts : StdSet String} {epcost : CostMatrix}
    (h : Portal.endPointCostLoop net behind view costMode test srcs dsts = some epcost) :
    PairsHavePids net behind view epcost.get := by
  refine keeps_foldlM (P := fun m : CostMatrix => PairsHavePids net behind view m.get)
    (fun src m m' hm hturn => ?_) ?_ h
  · obtain ⟨ip, hstrip, hinner⟩ := Option.bind_eq_some_iff.1 hturn
    refine keeps_foldlM (P := fun m : CostMatrix => PairsHavePids net behind view m.get)
      (fun dst m m' hm hturn => ?_) hm hinner
    obtain ⟨ip', hstrip', hturn⟩ := Option.bind_eq_some_iff.1 hturn
    obtain ⟨p, hp, hturn⟩ := Option.bind_eq_some_iff.1 hturn
    obtain ⟨q, hq, hturn⟩ := Option.bind_eq_some_iff.1 hturn
    have hsrc : (endPointPid net behind view src).isSome = true := by
      rw [endPointPid, hstrip, Option.bind_some, hp]
      rfl
    have hdst : (endPointPid net behind view dst).isSome = true := by
      rw [endPointPid, hstrip', Option.bind_some, hq]
      rfl
    split at hturn
    · exact Option.some.inj hturn ▸ hm
    obtain rfl := Option.some.inj hturn
    split
    · intro src' dst' cost' hget
      rw [CostMatrix.get_addCost] at hget
      split at hget
      · next heq => exact heq.1 ▸ heq.2 ▸ ⟨hsrc, hdst⟩
      · exact hm _ _ _ hget
    · exact hm
  · intro src dst cost hget
    simp [CostMatrix.get] at hget

end EndPoints

/-! ## Requests that are accepted -/

theorem bind_eq_ok {x : ReadJson A} {f : A → ReadJson B} {b : B} :
    x >>= f = .ok b ↔ ∃ a, x = .ok a ∧ f a = .ok b := by
  cases x with
  | ok a => exact ⟨fun h => ⟨a, rfl, h⟩, fun ⟨_, ha, h⟩ => ReadJson.ok.inj ha ▸ h⟩
  | error code => exact ⟨nofun, nofun⟩
  | exception => exact ⟨nofun, nofun⟩
  | undefined => exact ⟨nofun, nofun⟩

/-- The constraints of a filter that has been read can be read. -/
theorem exists_constraints {strtod : List Char → Double} {extract : List Char → Option Double}
    {jsonStr : List Char} {field : String} {filter : CostFilter}
    (h : PostFilter.readJson extract jsonStr (PostFilter.readCost strtod field) = .ok filter) :
    ∃ constraints, PostFilter.readConstraints strtod filter.constraints = some constraints := by
  unfold PostFilter.readJson at h
  cases hobj : JsonReader.readObject extract jsonStr with
  | exception => simp [hobj] at h
  | undefined => simp [hobj] at h
  | ok obj =>
    simp only [hobj] at h
    obtain ⟨costMode, -, h⟩ := bind_eq_ok.1 h
    obtain ⟨costType, -, h⟩ := bind_eq_ok.1 h
    obtain ⟨mat, -, h⟩ := bind_eq_ok.1 h
    obtain ⟨constraints, hread, h⟩ := bind_eq_ok.1 h
    obtain ⟨srcs, -, h⟩ := bind_eq_ok.1 h
    obtain ⟨dsts, -, h⟩ := bind_eq_ok.1 h
    obtain rfl := ReadJson.ok.inj h
    change ∃ c, PostFilter.readConstraints strtod constraints = some c
    unfold PostFilter.readConstraintsOf at hread
    cases hlookup : obj.lookup "constraints".toList with
    | none =>
      rw [hlookup] at hread
      obtain rfl := ReadJson.ok.inj hread
      exact ⟨_, rfl⟩
    | some element =>
      simp only [hlookup] at hread
      split at hread
      · cases hread
      split at hread
      · cases hread
      next c hc =>
      obtain rfl := ReadJson.ok.inj hread
      exact ⟨c, hc⟩

/-! ## The six handlers -/

variable {net : AddressText} {behind : Behind}

/-- The property service reads the view only for the property `pid`, and only if it comes first. -/
def PropertySafe (jsonEpp : JsonEndPointsProperty) (scene : Scene) : Prop :=
  jsonEpp.properties.toList.head? = some "pid" → scene.Unlocked viewLocks →
    scene.view.isSome = true → ∀ endPoint ∈ jsonEpp.endPoints, Strips endPoint

/-- All sources of a pair can be stripped, and all its endpoints have a PID. -/
def CostSafe (net : AddressText) (behind : Behind) (jsonEpcost : CostFilter) (scene : Scene) : Prop :=
  jsonEpcost.costMode ∈ costModeSet → jsonEpcost.costType ∈ costTypeSet →
    scene.Unlocked viewLocks → ∀ view, scene.view = some view →
      ∀ src ∈ jsonEpcost.srcs, Strips src ∧ ∀ dst ∈ jsonEpcost.dsts,
        (endPointPid net behind view src).isSome = true ∧
          (endPointPid net behind view dst).isSome = true

/-- The loop ends with an error at another property. -/
theorem answered_propertyLoop_cons {state : Answering EndPointsProperty} {P : EndPointsProperty → Prop}
    {type : String} (htype : type ≠ "pid") (endPoints : StdSet String) (types : List String)
    (epp : EndPointsProperty) (hnone : state.responses = []) :
    ((propertyLoop net behind scene endPoints (type :: types) epp >>= respond) state).Answered P := by
  have hset : type ∉ endPointsPropertySet := fun hmem => htype (List.mem_singleton.1 hmem)
  unfold propertyLoop
  rw [if_pos hset]
  exact ⟨.error _, congrArg (· ++ [_]) hnone, trivial⟩

theorem answered_property {state : Answering EndPointsProperty} {types : List String}
    (hnodup : types.Nodup) (endPoints : StdSet String) (hstart : state.attempts = 0)
    (hnone : state.responses = []) :
    ((propertyLoop net behind scene endPoints types ∅ >>= respond) state).Answered
        (fun epp => ∀ view, scene.view = some view → HavePids net behind view epp) ↔
      (types.head? = some "pid" → scene.Unlocked viewLocks → scene.view.isSome = true →
        ∀ endPoint ∈ endPoints, Strips endPoint) := by
  cases types with
  | nil =>
    refine iff_of_true ⟨.callback (some ∅), congrArg (· ++ [_]) hnone, ∅, rfl, ?_⟩ nofun
    intro view _ endPoint name hget
    simp at hget
  | cons type types =>
    by_cases htype : type = "pid"
    swap
    · exact iff_of_true (answered_propertyLoop_cons htype endPoints types ∅ hnone)
        fun h => absurd (Option.some.inj h) htype
    subst htype
    have hcaught : Thrown.tryLockFailed ≠ .outOfRange := nofun
    have hviewed := withView_viewed scene viewLocks hcaught (fun view => Yields.ofOption
      (endPoints.toList.foldlM (endPointTurn net behind view "pid") ∅)) hstart
    have hstrips : ∀ view, (endPoints.toList.foldlM (endPointTurn net behind view "pid")
        ∅).isSome = true ↔ ∀ endPoint ∈ endPoints, Strips endPoint := by
      intro view
      refine (isSome_foldlM (fun epp endPoint => endPointTurn_isSome epp endPoint) _ _).trans ?_
      simp only [Std.ExtTreeSet.mem_toList]
    have hset : ¬ "pid" ∉ endPointsPropertySet := not_not.2 (List.mem_singleton.2 rfl)
    unfold propertyLoop
    rw [if_neg hset, bind_apply, bind_apply]
    generalize withView viewLocks .tryLockFailed scene _ state = ending at hviewed
    cases hviewed with
    | failed hlocked _ k =>
      exact iff_of_true ⟨.empty 500, congrArg (· ++ [_]) hnone, rfl⟩ fun _ => (absurd · hlocked)
    | escaped _ hcaught => exact absurd rfl hcaught
    | missing _ hview k =>
      refine iff_of_true ⟨.error _, congrArg (· ++ [_]) hnone, trivial⟩ fun _ _ hsome => ?_
      rw [hview] at hsome
      cases hsome
    | @read view epp hunlocked hview hvalue k =>
      refine iff_of_true ?_ fun _ _ _ => (hstrips view).1 (Option.isSome_iff_exists.2 ⟨_, hvalue⟩)
      cases types with
      | nil =>
        refine ⟨.callback (some epp), congrArg (· ++ [_]) hnone, epp, rfl, fun view' hview' => ?_⟩
        obtain rfl := Option.some.inj (hview.symm.trans hview')
        exact havePids_of_loop hvalue
      | cons type₂ types =>
        have htype : type₂ ≠ "pid" := fun heq =>
          (List.nodup_cons.1 hnodup).1 (heq ▸ List.mem_cons_self)
        exact answered_propertyLoop_cons htype endPoints types epp hnone
    | @threw view hunlocked hview hresult k =>
      refine iff_of_false id fun h => ?_
      have hsome := (hstrips view).2 (h rfl hunlocked (Option.isSome_iff_exists.2 ⟨view, hview⟩))
      rw [hresult] at hsome
      cases hsome
    | @undefined view hunlocked hview hresult =>
      refine iff_of_false id fun h => ?_
      have hsome := (hstrips view).2 (h rfl hunlocked (Option.isSome_iff_exists.2 ⟨view, hview⟩))
      rw [hresult] at hsome
      cases hsome

theorem nodup_toList (set : StdSet String) : set.toList.Nodup := by
  refine Std.ExtTreeSet.distinct_toList.imp fun {a b} hne heq => hne ?_
  rw [heq]
  exact Std.ReflCmp.compare_self

/-- A handler that only computes from the view, and catches that a lock fails. -/
theorem answered_pure {f : ViewState → T} (hP : ∀ view, P (f view)) (hstart : state.attempts = 0)
    (hnone : state.responses = []) :
    ((withView locks .tryLockFailed scene (fun view => pure (f view)) >>= respond) state).Answered
      P := by
  have hcaught : Thrown.tryLockFailed ≠ .outOfRange := nofun
  refine (answered_withView hcaught (fun view => Yields.pure (f view)) hstart hnone).2 ⟨.inr rfl, ?_⟩
  exact fun _ view _ => ⟨f view, rfl, hP view⟩

theorem answered_netMapFiltered {extract : List Char → Option Double} {filter : List Char}
    {pidSet : StdSet String} (hread : JsonPIDSet.readJson extract filter = .ok pidSet) :
    (getNetMapFilteredFinish extract net filter scene {}).Answered (fun _ => True) ↔
      scene.Unlocked netMapLocks := by
  have hcaught : Thrown.tryReadLock ≠ .outOfRange := nofun
  unfold getNetMapFilteredFinish
  rw [hread]
  refine (answered_withView hcaught (fun view => Yields.pure _) rfl rfl).trans ⟨fun h => ?_, fun h => ?_⟩
  · exact h.1.resolve_right nofun
  · exact ⟨.inl h, fun _ _ _ => ⟨_, rfl, trivial⟩⟩

theorem answered_costMap (ar : Arith) (vtag costMode costType : String) :
    (getCostMapFinish ar vtag costMode costType scene {}).Answered fun _ => True :=
  (answered_withCost rfl).2 fun _ _ => answered_pure (fun _ => trivial) rfl rfl

theorem answered_costMapFiltered (ar : Arith) (vtag : String)
    {extract : List Char → Option Double} {strtod : List Char → Double} {filter : List Char} {pidMat : CostFilter}
    (hread : JsonPIDMatrix.readJson extract strtod filter = .ok pidMat) :
    (getCostMapFilteredFinish ar vtag extract strtod filter scene {}).Answered fun _ => True := by
  obtain ⟨constraints, hconstraints⟩ := exists_constraints hread
  simp only [getCostMapFilteredFinish, hread, withFilter, hconstraints]
  exact (answered_withCost rfl).2 fun _ _ => answered_pure (fun _ => trivial) rfl rfl

theorem pairsHavePids_commit {view : ViewState} {epcost : CostMatrix} (ar : Arith)
    (vtag costMode costType : String) (h : PairsHavePids net behind view epcost.get) :
    PairsHavePids net behind view
      (servedCost (makeJsonStr (epcost.commit ar costMode costType vtag))) := by
  intro src dst cost hget
  rw [servedCost_commit, Option.map_eq_some_iff] at hget
  obtain ⟨cost', hget', -⟩ := hget
  exact h src dst cost' hget'

theorem answered_endPointsCost (ar : Arith) (vtag : String) {extract : List Char → Option Double}
    {strtod : List Char → Double} {filter : List Char} {jsonEpcost : CostFilter}
    (hread : JsonEndPointsCost.readJson extract strtod filter = .ok jsonEpcost) :
    (getEndPointsCostFinish ar vtag extract strtod net behind filter scene {}).Answered
        (fun text => ∀ view, scene.view = some view →
          PairsHavePids net behind view (servedCost text)) ↔
      CostSafe net behind jsonEpcost scene := by
  obtain ⟨constraints, hconstraints⟩ := exists_constraints hread
  have hcaught : Thrown.tryLockFailed ≠ .outOfRange := nofun
  simp only [getEndPointsCostFinish, hread, withFilter, hconstraints]
  refine (answered_withCost rfl).trans (forall₂_congr fun hmode htype => ?_)
  refine (answered_withView hcaught (fun view => (yields_endPointCostLoop jsonEpcost.srcs
    jsonEpcost.dsts).bind fun epcost => Yields.pure (makeJsonStr (epcost.commit ar
      jsonEpcost.costMode jsonEpcost.costType vtag))) rfl rfl).trans ?_
  refine (and_iff_right (.inr rfl)).trans (forall_congr' fun hunlocked => forall₂_congr
    fun view hview => ?_)
  rw [← endPointCostLoop_isSome jsonEpcost.costMode constraints.inConstraints]
  constructor
  · rintro ⟨value, hvalue, -⟩
    obtain ⟨epcost, hloop, -⟩ := Option.bind_eq_some_iff.1 hvalue
    exact Option.isSome_iff_exists.2 ⟨epcost, hloop⟩
  · intro hsome
    obtain ⟨epcost, hloop⟩ := Option.isSome_iff_exists.1 hsome
    refine ⟨makeJsonStr (epcost.commit ar jsonEpcost.costMode jsonEpcost.costType vtag),
      by rw [hloop]; rfl, fun view' hview' => ?_⟩
    obtain rfl := Option.some.inj (hview.symm.trans hview')
    exact pairsHavePids_commit ar vtag _ _ (pairsHavePids_endPointCostLoop hloop)

/-- The network map services are answered exactly where no lock fails, for their clauses do not catch
that; the cost maps always; the property service where the endpoints can be stripped, and the endpoint
cost service where all its endpoints have PIDs, too, if they come to read the view. -/
theorem alto_answered_iff (ar : Arith) (vtag : String) (extract : List Char → Option Double)
    (strtod : List Char → Double) (net : AddressText) (behind : Behind) (scenes : List Scene)
    (last : Scene) :
    ((serve (getNetMapProcess net) (fun _ => getNetMapFinish) scenes last {}).Answered
      (fun _ => True) ↔ NetMapUnlocked scenes last) ∧
    (∀ filter pidSet, JsonPIDSet.readJson extract filter = .ok pidSet →
      ((serve noProcess (getNetMapFilteredFinish extract net filter) scenes last {}).Answered
        (fun _ => True) ↔ last.Unlocked netMapLocks)) ∧
    (∀ costMode costType,
      (serve noProcess (getCostMapFinish ar vtag costMode costType) scenes last {}).Answered
        fun _ => True) ∧
    (∀ filter pidMat, JsonPIDMatrix.readJson extract strtod filter = .ok pidMat →
      (serve noProcess (getCostMapFilteredFinish ar vtag extract strtod filter) scenes last
        {}).Answered fun _ => True) ∧
    (∀ filter jsonEpp, JsonEndPointsProperty.readJson extract filter = .ok jsonEpp →
      ((serve noProcess (getEndPointsPropertyFinish extract net behind filter) scenes last
        {}).Answered (fun epp => ∀ view, last.view = some view → HavePids net behind view epp) ↔
          PropertySafe jsonEpp last)) ∧
    ∀ filter jsonEpcost, JsonEndPointsCost.readJson extract strtod filter = .ok jsonEpcost →
      ((serve noProcess (getEndPointsCostFinish ar vtag extract strtod net behind filter) scenes last
        {}).Answered
          (fun text => ∀ view, last.view = some view →
            PairsHavePids net behind view (servedCost text)) ↔
        CostSafe net behind jsonEpcost last) := by
  have hfinish : ∀ {T : Type} (finish : Scene → Handler T Unit),
      serve noProcess finish scenes last {} = finish last {} :=
    fun finish => serve_noProcess finish scenes last rfl rfl
  refine ⟨answered_netMap net scenes last rfl, fun filter pidSet hread => ?_,
    fun costMode costType => ?_, fun filter pidMat hread => ?_, fun filter jsonEpp hread => ?_,
    fun filter jsonEpcost hread => ?_⟩
  · rw [hfinish]
    exact answered_netMapFiltered hread
  · rw [hfinish]
    exact answered_costMap ar vtag costMode costType
  · rw [hfinish]
    exact answered_costMapFiltered ar vtag hread
  · rw [hfinish]
    unfold getEndPointsPropertyFinish
    rw [hread]
    exact answered_property (nodup_toList _) jsonEpp.endPoints rfl rfl
  · rw [hfinish]
    exact answered_endPointsCost ar vtag hread

deriving instance DecidableEq for CostFilter, ReadJson

/-- A request for the cost from `10.0.0.0` to `10.1.0.0`. -/
def costRequest : List Char :=
  "\x7b\"cost-mode\":\"ordinal\",\"cost-type\":\"routingcost\",\"endpoints\":".toList ++
    "\x7b\"srcs\":[\"ipv4:10.0.0.0\"],\"dsts\":[\"ipv4:10.1.0.0\"]\x7d\x7d".toList

/-- No lock fails: the network map is answered although the second call comes upon no view any more, and
the endpoint costs of a request with two endpoints that have PIDs. -/
theorem alto_answered_removed :
    (serve (getNetMapProcess tenText) (fun _ => getNetMapFinish)
      [⟨some twoView, fun _ => true⟩] ⟨none, fun _ => true⟩ {}).Answered (fun _ => True) ∧
    (serve noProcess (getEndPointsCostFinish exactArith "1" (fun _ => none) (fun _ => 0) tenText
      (fun _ _ => false) costRequest) [] ⟨some twoView, fun _ => true⟩ {}).Answered
        (fun text => ∀ view, some twoView = some view →
          PairsHavePids tenText (fun _ _ => false) view (servedCost text)) := by
  have hread : JsonEndPointsCost.readJson (fun _ => none) (fun _ => 0) costRequest =
      .ok ⟨"ordinal", "routingcost", none, {"ipv4:10.0.0.0"}, {"ipv4:10.1.0.0"}⟩ := by
    decide +kernel
  obtain ⟨hnet, -⟩ := alto_answered_iff exactArith "1" (fun _ => none) (fun _ => 0) tenText
    (fun _ _ => false) [⟨some twoView, fun _ => true⟩] ⟨none, fun _ => true⟩
  obtain ⟨-, -, -, -, -, hcosts⟩ := alto_answered_iff exactArith "1" (fun _ => none) (fun _ => 0)
    tenText (fun _ _ => false) [] ⟨some twoView, fun _ => true⟩
  have hsafe : CostSafe tenText (fun _ _ => false)
      ⟨"ordinal", "routingcost", none, {"ipv4:10.0.0.0"}, {"ipv4:10.1.0.0"}⟩
      ⟨some twoView, fun _ => true⟩ := by
    intro hmode htype hunlocked view hview src hsrc
    obtain rfl := Option.some.inj hview
    rw [StdSet.mem_singleton] at hsrc
    rw [hsrc]
    refine ⟨rfl, fun dst hdst => ?_⟩
    rw [StdSet.mem_singleton] at hdst
    rw [hdst]
    decide +kernel
  have hcost := hcosts costRequest
  clear hcosts
  -- the request and what is read of it are set aside, for the terms are large
  generalize costRequest = filter at *
  generalize (⟨"ordinal", "routingcost", none, {"ipv4:10.0.0.0"}, {"ipv4:10.1.0.0"}⟩ : CostFilter) =
    jsonEpcost at *
  exact ⟨hnet.2 ⟨by decide, .inr (by decide : Scene.Unlocked ⟨none, fun _ => true⟩ netMapLocks)⟩,
    (hcost jsonEpcost hread).2 hsafe⟩

/-- The exception of a lock that fails escapes from `GetNetMapProcess`, and that of a short endpoint
from `GetEndPointsPropertyFinish`. `GetEndPointsCostFinish` follows a null pointer for an address
without a PID. -/
theorem alto_not_answered :
    ¬ (serve (getNetMapProcess tenText) (fun _ => getNetMapFinish) []
      ⟨some (oneView "a"), fun _ => false⟩ {}).Answered (fun _ => True) ∧
    ¬ (serve noProcess (getEndPointsPropertyFinish (fun _ => none) tenText (fun _ _ => false)
      "\x7b\"properties\":[\"pid\"],\"endpoints\":[\"ip\"]\x7d".toList) []
      ⟨some (oneView "a"), fun _ => true⟩ {}).Answered (fun _ => True) ∧
    ¬ (serve noProcess (getEndPointsCostFinish exactArith "1" (fun _ => none) (fun _ => 0) tenText
      (fun _ _ => false) ("\x7b\"cost-mode\":\"numerical\",\"cost-type\":\"routingcost\",".toList ++
        "\"endpoints\":\x7b\"srcs\":[\"::\"],\"dsts\":[\"::\"]\x7d\x7d".toList)) []
      ⟨some (oneView "a"), fun _ => true⟩ {}).Answered (fun _ => True) := by
  refine ⟨mt Ending.Answered.returns ?_, mt Ending.Answered.returns ?_,
    mt Ending.Answered.returns ?_⟩
  · decide +kernel
  · decide +kernel
  · decide +kernel

end RESTHandler

end Alto.Portal
