import Alto.Lib.MapEntries
import Alto.Lib.Run
import Alto.Server.PIDRoutes

/-!
# The static routes of a view and their index

The index has an entry for each hop of each stored route, and no routes are stored in the mode
`RM_WEIGHTS`. Adding and removing routes keeps that. Leaving the static mode, removing a PID of a route
and copying do not, so a run keeps it if these three find no route to get wrong.
-/

namespace Alto.PIDRouting

open Lib

variable {r r' : PIDRouting} {p : PID} {id : Nat} {route : List PID}

/-! ## Operations -/

/-- The operations on a `PIDRouting` that touch the static routes. An object can be copied, and it can be
the copy of one. -/
inductive Op where
  | setRouteMode (value : RouteMode)
  | addStaticRoute (route : List PID)
  | removeStaticRoute (route : List PID)
  | clearStaticRoutes
  | addPid (pid : PID)
  | removePid (pid : PID)
  | copied
  | copy

/-- The number of a new element of `static_routes_`. -/
def freshId (r : PIDRouting) : Nat := (r.staticRoutes.map (·.id)).foldr max 0 + 1

/-- One operation; an index entry of another object must not be followed. -/
def step (r : PIDRouting) : Op → Option PIDRouting
  | .setRouteMode value => some (r.setRouteMode value)
  | .addStaticRoute route => some (r.addStaticRoute r.freshId route).2
  | .removeStaticRoute route => (r.removeStaticRoute route).map (·.2)
  | .clearStaticRoutes => some r.clearStaticRoutes.2
  | .addPid pid => some (r.addPid pid)
  | .removePid pid => r.removePid pid
  | .copied => some r.afterCopyProperties
  | .copy => some r.doCopyProperties

/-! ## The store -/

/-- The index has exactly the hops of the stored routes, and routes are stored in the static mode
only. -/
structure StoreExact (r : PIDRouting) : Prop where
  ptrs : ∀ p ptr, (p, ptr) ∈ r.staticRoutePtrs ↔
    ∃ s ∈ r.staticRoutes, ptr = .own s.id ∧ p ∈ s.route
  weights : r.routeMode = .weights → r.staticRoutes = []

/-- With it, routes have their own numbers and at least two hops. -/
structure Stored (r : PIDRouting) : Prop extends StoreExact r where
  ids : (r.staticRoutes.map (·.id)).Nodup
  hops : ∀ s ∈ r.staticRoutes, 2 ≤ s.route.length

theorem Stored.static (h : Stored r) {s : StaticRoute} (hs : s ∈ r.staticRoutes) :
    r.routeMode = .static := by
  cases hmode : r.routeMode with
  | static => rfl
  | weights =>
    rw [h.weights hmode] at hs
    cases hs

theorem Stored.eq_of_id (h : Stored r) {s t : StaticRoute} (hs : s ∈ r.staticRoutes)
    (ht : t ∈ r.staticRoutes) (hid : s.id = t.id) : s = t :=
  List.inj_on_of_nodup_map h.ids hs ht hid

theorem stored_new (w : Double) : Stored (.new w) where
  ptrs _ _ := iff_of_false List.not_mem_nil fun h => absurd h.choose_spec.1 List.not_mem_nil
  weights _ := rfl
  ids := .nil
  hops _ hs := absurd hs List.not_mem_nil

/-- Nothing stored and no index. -/
theorem stored_empty (hroutes : r.staticRoutes = []) (hptrs : r.staticRoutePtrs = []) :
    Stored r where
  ptrs p ptr := by
    rw [hroutes, hptrs]
    exact iff_of_false List.not_mem_nil fun h => absurd h.choose_spec.1 List.not_mem_nil
  weights _ := hroutes
  ids := by
    rw [hroutes]
    exact .nil
  hops s hs := by
    rw [hroutes] at hs
    cases hs

/-- Without routes there is no index. -/
theorem StoreExact.ptrs_eq_nil (h : StoreExact r) (hroutes : r.staticRoutes = []) :
    r.staticRoutePtrs = [] := by
  refine List.eq_nil_iff_forall_not_mem.2 fun e he => ?_
  obtain ⟨s, hs, -⟩ := (h.ptrs e.1 e.2).1 he
  rw [hroutes] at hs
  cases hs

theorem freshId_notMem (r : PIDRouting) : r.freshId ∉ r.staticRoutes.map (·.id) :=
  foldr_max_succ_notMem _

/-! ## Adding and removing routes -/

theorem Stored.addStaticRoute (h : Stored r) (hid : id ∉ r.staticRoutes.map (·.id)) :
    Stored (r.addStaticRoute id route).2 := by
  rw [PIDRouting.addStaticRoute]
  split
  · exact h
  · next hmode =>
    split
    · exact h
    · next hlength =>
      refine ⟨⟨fun p ptr => ?_, fun hw => absurd (hw.symm.trans (not_not.1 hmode)) (by decide)⟩, ?_,
        fun s hs => ?_⟩
      · rw [List.mem_append, h.ptrs, List.mem_map]
        simp only [List.mem_append, List.mem_singleton, Prod.mk.injEq, or_and_right, exists_or,
          exists_eq_left]
        refine or_congr_right ⟨?_, ?_⟩
        · rintro ⟨a, ha, rfl, rfl⟩
          exact ⟨rfl, ha⟩
        · rintro ⟨rfl, ha⟩
          exact ⟨p, ha, rfl, rfl⟩
      · rw [List.map_append, List.nodup_append]
        refine ⟨h.ids, List.nodup_singleton _, ?_⟩
        rintro a ha b hb rfl
        obtain rfl := List.mem_singleton.1 hb
        exact hid ha
      · rcases List.mem_append.1 hs with hs | hs
        · exact h.hops s hs
        · obtain rfl := List.mem_singleton.1 hs
          exact Nat.le_of_not_lt hlength

/-- The index entries of a stored route go. -/
theorem Stored.removeStaticRoutePtrs (h : Stored r) {s : StaticRoute} (hs : s ∈ r.staticRoutes) :
    ∃ ptrs, r.removeStaticRoutePtrs (.own s.id) = some { r with staticRoutePtrs := ptrs } ∧
      ∀ p ptr, (p, ptr) ∈ ptrs ↔ (p, ptr) ∈ r.staticRoutePtrs ∧ ptr ≠ .own s.id := by
  have hfind : r.staticRoutes.find? (·.id = s.id) = some s := by
    cases hf : r.staticRoutes.find? (·.id = s.id) with
    | none =>
      have hno := List.find?_eq_none.1 hf s hs
      simp at hno
    | some t =>
      have hid := List.find?_some hf
      rw [h.eq_of_id (List.mem_of_find?_eq_some hf) hs (of_decide_eq_true hid)]
  refine ⟨_, by rw [PIDRouting.removeStaticRoutePtrs, hfind], fun p ptr => ?_⟩
  rw [List.mem_filter, decide_eq_true_eq]
  refine and_congr_right fun hmem => not_congr ⟨And.left, ?_⟩
  rintro rfl
  obtain ⟨t, ht, hid, hp⟩ := (h.ptrs _ _).1 hmem
  obtain rfl := h.eq_of_id hs ht (RoutePtr.own.inj hid)
  exact ⟨rfl, hp⟩

theorem Stored.removeStaticRoute (h : Stored r) (route : List PID) :
    ∃ b r', r.removeStaticRoute route = some (b, r') ∧ Stored r' := by
  rw [PIDRouting.removeStaticRoute]
  split
  · exact ⟨_, _, rfl, h⟩
  · split
    · exact ⟨_, _, rfl, h⟩
    · next s hs =>
      have hmem := List.mem_of_find?_eq_some hs
      obtain ⟨ptrs, hrun, hptrs⟩ := h.removeStaticRoutePtrs hmem
      rw [if_pos (h.static hmem), hrun]
      refine ⟨_, _, rfl, ⟨fun p ptr => ?_, fun hmode => ?_⟩, ?_, fun t ht => ?_⟩
      · rw [hptrs, h.ptrs]
        simp only [List.mem_filter, decide_eq_true_eq]
        constructor
        · rintro ⟨⟨t, ht, rfl, hp⟩, hne⟩
          exact ⟨t, ⟨ht, fun hid => hne (congrArg _ hid)⟩, rfl, hp⟩
        · rintro ⟨t, ⟨ht, hne⟩, rfl, hp⟩
          exact ⟨⟨t, ht, rfl, hp⟩, fun hid => hne (RoutePtr.own.inj hid)⟩
      · rw [h.weights hmode]
        rfl
      · exact (List.filter_sublist.map _).nodup h.ids
      · exact h.hops t (List.mem_filter.1 ht).1

/-! ## Removing a PID -/

theorem removeStaticRoutePtrs_routes {itr : RoutePtr} (h : r.removeStaticRoutePtrs itr = some r') :
    r'.staticRoutes = r.staticRoutes := by
  unfold removeStaticRoutePtrs at h
  split at h
  · cases h
  · split at h
    · cases h
    · obtain rfl := Option.some.inj h
      rfl

/-- Removing a PID does not remove a route. -/
theorem removePid_routes (h : r.removePid p = some r') : r'.staticRoutes = r.staticRoutes := by
  rw [removePid] at h
  split at h
  · next hmode =>
    clear hmode
    generalize r.appendStaticRoutePtrs p = itrs at h
    induction itrs generalizing r with
    | nil => exact Option.some.inj h ▸ rfl
    | cons itr itrs ih =>
      rw [List.foldlM_cons] at h
      obtain ⟨mid, hmid, h⟩ := Option.bind_eq_some_iff.1 h
      exact (ih h).trans (removeStaticRoutePtrs_routes hmid)
  · obtain rfl := Option.some.inj h
    rfl

/-- A PID that is on no route has no index entries. -/
theorem StoreExact.appendStaticRoutePtrs (h : StoreExact r)
    (hp : ∀ s ∈ r.staticRoutes, p ∉ s.route) : r.appendStaticRoutePtrs p = [] := by
  have hfilter : r.staticRoutePtrs.filter (·.1 = p) = [] := by
    refine List.filter_eq_nil_iff.2 fun e he hpid => ?_
    obtain ⟨s, hs, -, hmem⟩ := (h.ptrs e.1 e.2).1 he
    rw [of_decide_eq_true hpid] at hmem
    exact hp s hs hmem
  rw [PIDRouting.appendStaticRoutePtrs, hfilter]
  rfl

theorem Stored.removePid (h : Stored r) (hp : ∀ s ∈ r.staticRoutes, p ∉ s.route) :
    ∃ r', r.removePid p = some r' ∧ Stored r' := by
  rw [PIDRouting.removePid]
  split
  · rw [h.toStoreExact.appendStaticRoutePtrs hp]
    exact ⟨r, rfl, h⟩
  · exact ⟨_, rfl, ⟨h.ptrs, h.weights⟩, h.ids, h.hops⟩

/-! ## Runs -/

/-- The operation finds no route to get wrong: none is stored when the static mode is left and when the
object is copied, and a PID that is removed is on none. -/
def Op.Keeps (r : PIDRouting) : Op → Prop
  | .setRouteMode value => value = .weights → r.staticRoutes = []
  | .removePid p => ∀ s ∈ r.staticRoutes, p ∉ s.route
  | .copied => r.staticRoutes = []
  | .copy => r.staticRoutes = []
  | _ => True

theorem Stored.step (h : Stored r) {op : Op} (hkeeps : op.Keeps r) :
    ∃ r', r.step op = some r' ∧ Stored r' := by
  cases op with
  | setRouteMode value =>
    refine ⟨_, rfl, ?_⟩
    rw [PIDRouting.setRouteMode]
    split
    · exact h
    · cases value with
      | static => exact stored_empty rfl rfl
      | weights =>
        have hroutes := hkeeps rfl
        exact stored_empty hroutes (h.ptrs_eq_nil hroutes)
  | addStaticRoute route => exact ⟨_, rfl, h.addStaticRoute (freshId_notMem r)⟩
  | removeStaticRoute route =>
    obtain ⟨b, r', hrun, h'⟩ := h.removeStaticRoute route
    exact ⟨r', by rw [PIDRouting.step, hrun]; rfl, h'⟩
  | clearStaticRoutes =>
    refine ⟨_, rfl, ?_⟩
    rw [PIDRouting.clearStaticRoutes]
    split
    · exact h
    · exact stored_empty rfl rfl
  | addPid pid =>
    refine ⟨_, rfl, ?_⟩
    rw [PIDRouting.addPid]
    split
    · exact h
    · exact ⟨⟨h.ptrs, h.weights⟩, h.ids, h.hops⟩
  | removePid pid => exact h.removePid hkeeps
  | copied =>
    have hroutes : r.staticRoutes = [] := hkeeps
    refine ⟨_, rfl, ?_⟩
    rw [afterCopyProperties]
    split
    · exact stored_empty hroutes (by simp [hroutes, h.ptrs_eq_nil hroutes])
    · exact h
  | copy =>
    have hroutes : r.staticRoutes = [] := hkeeps
    exact ⟨_, rfl, stored_empty (by simp [doCopyProperties, hroutes]) rfl⟩

/-- A stored route has a hop. -/
theorem Stored.exists_hop (h : Stored r) (hne : r.staticRoutes ≠ []) :
    ∃ s ∈ r.staticRoutes, ∃ p, p ∈ s.route := by
  obtain ⟨s, hs⟩ := List.exists_mem_of_ne_nil _ hne
  exact ⟨s, hs, List.exists_mem_of_length_pos (Nat.lt_of_lt_of_le (by decide) (h.hops s hs))⟩

/-- An operation that finds a route to get wrong does get it wrong. -/
theorem Stored.keeps (h : Stored r) {op : Op} (hstep : r.step op = some r') (h' : StoreExact r')
    (hremoved : ∀ p, op = .removePid p → ∀ s ∈ r'.staticRoutes, p ∉ s.route) : op.Keeps r := by
  cases op with
  | setRouteMode value =>
    rintro rfl
    obtain rfl := Option.some.inj hstep
    cases hmode : r.routeMode with
    | weights => exact h.weights hmode
    | static =>
      rw [PIDRouting.setRouteMode, if_neg (by rw [hmode]; decide)] at h'
      exact h'.weights rfl
  | removePid p =>
    have hroutes := hremoved p rfl
    rwa [removePid_routes hstep] at hroutes
  | copied =>
    obtain rfl := Option.some.inj hstep
    by_contra hne
    obtain ⟨s, hs, p, hp⟩ := h.exists_hop hne
    rw [afterCopyProperties, if_pos (h.static hs)] at h'
    obtain ⟨t, -, hfalse, -⟩ := (h'.ptrs p .foreign).1 (List.mem_append_right _
      (List.mem_flatMap.2 ⟨s, hs, List.mem_map.2 ⟨p, hp, rfl⟩⟩))
    cases hfalse
  | copy =>
    obtain rfl := Option.some.inj hstep
    by_contra hne
    obtain ⟨s, hs, p, hp⟩ := h.exists_hop hne
    have hmem : s ∈ r.doCopyProperties.staticRoutes := by
      rw [doCopyProperties, if_pos (h.static hs)]
      exact hs
    exact absurd ((h'.ptrs p (.own s.id)).2 ⟨s, hmem, rfl, hp⟩) List.not_mem_nil
  | _ => trivial

/-- In a run in which no operation finds a route to get wrong, the index is exact and no routes are
stored with `RM_WEIGHTS`. And the next operation keeps that, and a removed PID is on no route, exactly if
it does not find one either. -/
theorem static_route_store {w : Double} {ops : List Op}
    (hrun : Run step (fun r op => op.Keeps r) (.new w) ops r) :
    StoreExact r ∧ ∀ op : Op, op.Keeps r ↔ ∃ r', r.step op = some r' ∧ StoreExact r' ∧
      ∀ p, op = .removePid p → ∀ s ∈ r'.staticRoutes, p ∉ s.route := by
  have h : Stored r := hrun.invariant (stored_new w) fun r op r' h hkeeps hstep => by
    obtain ⟨r'', hstep', h'⟩ := h.step hkeeps
    obtain rfl := Option.some.inj (hstep.symm.trans hstep')
    exact h'
  refine ⟨h.toStoreExact, fun op => ⟨fun hkeeps => ?_, ?_⟩⟩
  · obtain ⟨r', hstep, h'⟩ := h.step hkeeps
    refine ⟨r', hstep, h'.toStoreExact, ?_⟩
    rintro p rfl
    rw [removePid_routes hstep]
    exact hkeeps
  · rintro ⟨r', hstep, h', hremoved⟩
    exact h.keeps hstep h' hremoved

/-- A route is stored, and another route of the same PIDs is removed. -/
theorem static_route_store_removed : ∃ r,
    Run step (fun r op => op.Keeps r) (.new 1)
      [.setRouteMode .static, .addStaticRoute [⟨"isp", 0, false⟩, ⟨"isp", 1, false⟩],
        .addStaticRoute [⟨"isp", 1, false⟩, ⟨"isp", 0, false⟩],
        .removeStaticRoute [⟨"isp", 0, false⟩, ⟨"isp", 1, false⟩]] r ∧
      StoreExact r ∧ r.staticRoutes = [⟨2, [⟨"isp", 1, false⟩, ⟨"isp", 0, false⟩]⟩] := by
  have hrun : Run step (fun r op => op.Keeps r) (.new 1)
      [.setRouteMode .static, .addStaticRoute [⟨"isp", 0, false⟩, ⟨"isp", 1, false⟩],
        .addStaticRoute [⟨"isp", 1, false⟩, ⟨"isp", 0, false⟩],
        .removeStaticRoute [⟨"isp", 0, false⟩, ⟨"isp", 1, false⟩]] _ :=
    .cons nofun rfl (.cons trivial rfl (.cons trivial rfl (.cons trivial rfl (.nil _))))
  exact ⟨_, hrun, (static_route_store hrun).1, by decide⟩

/-- Leaving the static mode keeps a stored route, removing one of its PIDs keeps it without its index
entries, and its copy has no index for it. -/
theorem static_route_store_lost : ∃ r r₁ r₂ r₃,
    Run step (fun _ _ => True) (.new 1)
      [.setRouteMode .static, .addStaticRoute [⟨"isp", 0, false⟩, ⟨"isp", 1, false⟩]] r ∧
    r.step (.setRouteMode .weights) = some r₁ ∧ r₁.routeMode = .weights ∧ r₁.staticRoutes ≠ [] ∧
    r.step (.removePid ⟨"isp", 0, false⟩) = some r₂ ∧
    (∃ s ∈ r₂.staticRoutes, (⟨"isp", 0, false⟩ : PID) ∈ s.route) ∧ r₂.staticRoutePtrs = [] ∧
    r.step .copy = some r₃ ∧ r₃.staticRoutes ≠ [] ∧ r₃.staticRoutePtrs = [] := by
  refine ⟨_, _, _, _, .cons trivial rfl (.cons trivial rfl (.nil _)), rfl, ?_, ?_, rfl, ?_, ?_, rfl,
    ?_, ?_⟩
  all_goals decide

end Alto.PIDRouting
