import Mathlib
import Alto.Verify.PDistanceLoad
import Alto.Verify.ViewConsistency

/-!
# The costs that clients see

A client that has loaded the PID map of a view and then its pDistances finds, between any two addresses,
the cost that the portal has between their PIDs, whatever transactions and updates the portal has gone
through.
-/

namespace Alto

open Lib Portal

namespace Server

/-- The prefixes and the pDistances of the view in a slot. -/
structure CostsAt (s : Server) (i : Nat) (view : CostView) : Prop where
  prefixes : s.tree.objects i .prefixes = some (.pidMap view.prefixes)
  intra : s.tree.objects i .intraPDistances = some (.matrix view.intradomainPDistances)
  inter : s.tree.objects i .interPDistances = some (.matrix view.interdomainPDistances)

/-- The prefixes of a view come from operations. -/
theorem CostsAt.operated {s : Server} {i : Nat} {view : CostView} (h : s.CostsAt i view)
    (hs : (s.tree.objects i).Consistent) : view.prefixes.Operated := by
  rcases hs with hs | ⟨_, m, _, _, -, hm, -, -, hagrees⟩
  · cases (hs _ (by decide) (by decide)).symm.trans h.prefixes
  · cases hm.symm.trans h.prefixes
    exact hagrees.prefixes

end Server

/-- The cost that the portal has between two addresses, with these bytes behind them, as clients get
it. -/
def Portal.costBetween (behind behind' : Behind) (rnd : ℚ → Double) (cast : Double → Nat) (view : CostView)
    (q q' : IPPrefix) : Int :=
  match view.prefixes.lookup behind q, view.prefixes.lookup behind' q' with
  | some (_, src), some (_, dst) => wireCost rnd cast view src dst
  | _, _ => errUnknownPID

section Loaded

variable {view : CostView} {map : ISPPIDMap} {dists : ISPPDistanceMap} {cost : PID → PID → Nat}
  {pid : PID}

theorem hasPrefixes_of_mem (h : pid ∈ view.prefixes.enumerateValues) :
    view.prefixes.hasPrefixes pid = true := by
  rwa [PatriciaTrie.enumerateValues, Std.ExtTreeMap.mem_keys, ← Std.ExtTreeMap.contains_iff_mem] at h

/-- The number of a PID is its place among the PIDs. -/
theorem ISPPIDMap.Mirrors.place (h : map.Mirrors view.prefixes)
    (hpid : pid ∈ view.prefixes.enumerateValues) :
    0 ≤ map.getPIDIndex pid ∧ map.pids[(map.getPIDIndex pid).toNat]? = some pid := by
  rw [ISPPIDMap.getPIDIndex_of_mem h.pids hpid, ISPPIDMap.numberIn, Int.toNat_natCast, h.pids]
  exact ⟨Int.natCast_nonneg _, List.getElem?_idxOf hpid⟩

/-- The two maps of a client together. -/
theorem ISPPDistanceMap.Answers.between (hdists : dists.Answers map.pids view cost)
    (hmap : map.Mirrors view.prefixes) (hinv : view.prefixes.Inv) (behind behind' : Behind)
    (q q' : IPPrefix) : dists.getPDistance (map.lookup behind q).1 (map.lookup behind' q').1 =
      match view.prefixes.lookup behind q, view.prefixes.lookup behind' q' with
      | some (_, src), some (_, dst) => (cost src dst : Int)
      | _, _ => errUnknownPID := by
  have hmem : ∀ {behind q pfx pid}, view.prefixes.lookup behind q = some (pfx, pid) →
      pid ∈ view.prefixes.enumerateValues := fun h =>
    ISPPIDMap.mem_enumerateValues_of_mem hinv (PatriciaTrie.mem_of_lookup hinv h) rfl
  have hunknown : (errUnknownPID : Int) < 0 := by decide
  rw [hmap.lookup, hmap.lookup]
  cases hq : view.prefixes.lookup behind q with
  | none => exact hdists.unknown _ _ (.inl hunknown)
  | some x =>
    cases hq' : view.prefixes.lookup behind' q' with
    | none => exact hdists.unknown _ _ (.inr (.inl hunknown))
    | some y =>
      obtain ⟨hi, hsrc⟩ := hmap.place (hmem hq)
      obtain ⟨hj, hdst⟩ := hmap.place (hmem hq')
      exact hdists.known _ _ _ _ hi hj hsrc hdst (hasPrefixes_of_mem (hmem hq))
        (hasPrefixes_of_mem (hmem hq'))

end Loaded

/-- Over every run of the portal, a client that has loaded the PID map and the pDistances of a view has
the portal's cost between any two addresses, whatever bytes are behind them. -/
theorem costs_between_addresses {env : Env} {clock : Nat → Nat} {s₀ s : Server}
    {events : List Server.Event} (hinit : Server.init env clock = some s₀)
    (hr : Run (Server.react env) (fun _ _ => True) s₀ events s) {i : Nat} {view : CostView}
    (hview : s.CostsAt i view) (hload : Loadable view.prefixes) {net : AddressText}
    (hnet : net.Numeric) (stack : Nat → Nat) (behind : Behind)
    {order : Finset Response.ReadPrefix → List Response.ReadPrefix}
    (horder : ∀ s p, p ∈ order s ↔ p ∈ s) (rnd : ℚ → Double) (cast : Double → Nat)
    (sizes : Nat → Nat) (hfit : PIDMapFits net view.prefixes sizes)
    (hcosts : CostsFit rnd cast view {} sizes) :
    (∃ n, (pidMapText net view.prefixes ((List.range n).map sizes)).isSome) ∧
    (∃ n, (costsText rnd cast view ((List.range n).map sizes)).isSome) ∧
    ∀ n m text text', pidMapText net view.prefixes ((List.range n).map sizes) = some text →
      costsText rnd cast view ((List.range m).map sizes) = some text' →
      ∀ (chunks chunks' : List (List Char)) (source source' : DataSource),
        chunks.flatten = text → source.Delivers chunks →
        chunks'.flatten = text' → source'.Delivers chunks' →
        ∀ (old : ISPPIDMap) (old' : ISPPDistanceMap), ∃ map dists,
          old.loadP4PInfo behind net stack order source = some (0, map) ∧
          old'.loadP4PInfo map.pids source' = some (0, dists) ∧
          ∀ (behind' behind'' : Behind) (q q' : IPPrefix),
            dists.getPDistance (map.lookup behind' q).1 (map.lookup behind'' q').1 =
              costBetween behind' behind'' rnd cast view q q' := by
  have hr' : Run (Server.react env) (fun _ e => ∀ a ∈ e.actions, True) s₀ events s :=
    hr.mono fun _ _ _ _ _ => trivial
  have hconsistent : (s.tree.objects i).Consistent :=
    (Server.views_of_run (fun v w h hv => hv.step h) (.inl fun _ _ _ => rfl) hinit hr').2 i
  obtain ⟨ops, hops⟩ := hview.operated hconsistent
  have hinv : view.prefixes.Inv := hops ▸ PatriciaTrie.inv_run PatriciaTrie.inv_empty ops
  refine ⟨(respond_pidMap hload hfit).1, hcosts.ends, ?_⟩
  intro n m text text' htext htext' chunks chunks' source source' hchunks hsource hchunks' hsource'
    old old'
  obtain ⟨map, hmap, hmirrors⟩ :=
    hfit.loads hnet stack behind horder hinv hload htext hchunks hsource old
  obtain ⟨dists, hdists, hanswers⟩ :=
    hcosts.loads hload htext' hchunks' hsource' map.pids old'
  exact ⟨map, dists, hmap, hdists, hanswers.between hmirrors hinv⟩

/-! ## Two PIDs -/

namespace Server

/-- The update of a view sets the pDistances `tenCosts`. -/
def tenEnv : Env :=
  { sampleEnv with computeResult := fun _ _ _ _ _ => some (some (.empty, tenCosts)) }

/-- The transaction that makes the view `tenView`. -/
def tenEvent : Event :=
  .transact (fun _ => 0) .directWrite [1] [.viewAdd "isp",
    .viewAddPID "isp" "west" ⟨"isp", 1, false⟩, .viewAddPID "isp" "east" ⟨"isp", 2, true⟩,
    .viewAddPIDPrefixes "isp" "west" [PatriciaTrie.ten16],
    .viewAddPIDPrefixes "isp" "east" [PatriciaTrie.ten8],
    .viewAddPIDPrefixes "isp" "west" [PatriciaTrie.tenOne16], .viewPDistanceUpdate "isp"]

/-- The server after the transaction. -/
def tenServer : Option Server :=
  (init tenEnv fun _ => 0).bind fun s => react tenEnv s tenEvent

theorem costsAt_tenServer : tenServer.map (fun s => [s.tree.objects 1 .prefixes,
    s.tree.objects 1 .intraPDistances, s.tree.objects 1 .interPDistances]) =
    some [some (.pidMap tenPrefixes), some (.matrix .empty), some (.matrix tenCosts)] := by
  decide +kernel

end Server

/-- The cost from the internal PID to the external one. -/
theorem costs_between_addresses_ten : ∃ s : Server, s.CostsAt 1 tenView ∧
    ∃ text text', pidMapText tenText tenPrefixes [64, 64, 64, 64, 64, 64] = some text ∧
      costsText .fin lowBits tenView [64, 64, 64, 64, 64, 64] = some text' ∧
      ∃ map dists,
        (ISPPIDMap.ofPrefixes (fun _ _ => false) []).loadP4PInfo (fun _ _ => false) tenText
          (fun _ => 0) Finset.toList (.server { chunks := [text] }) = some (0, map) ∧
        (ISPPDistanceMap.mk []).loadP4PInfo map.pids (.file true [text'] false) = some (0, dists) ∧
        dists.getPDistance (map.lookup (fun _ _ => true) PatriciaTrie.tenOne16).1
          (map.lookup (fun _ _ => false) PatriciaTrie.ten8).1 =
          costBetween (fun _ _ => true) (fun _ _ => false) .fin lowBits tenView
            PatriciaTrie.tenOne16 PatriciaTrie.ten8 := by
  obtain ⟨s, hs, hobjects⟩ := Option.map_eq_some_iff.1 Server.costsAt_tenServer
  obtain ⟨s₀, hinit, hreact⟩ := Option.bind_eq_some_iff.1 hs
  simp only [List.cons.injEq, and_true] at hobjects
  obtain ⟨hprefixes, hintra, hinter⟩ := hobjects
  have hview : s.CostsAt 1 tenView := ⟨hprefixes, hintra, hinter⟩
  have hfit : PIDMapFits tenText tenPrefixes fun _ => 64 :=
    fun k pid hpid item hitem =>
      (pidMapFits_tenPrefixes k pid hpid item hitem).trans (show (16 : Nat) ≤ 64 by decide)
  have htexts : (pidMapText tenText tenPrefixes [64, 64, 64, 64, 64, 64]).isSome = true ∧
      (costsText .fin lowBits tenView [64, 64, 64, 64, 64, 64]).isSome = true := by decide +kernel
  obtain ⟨text, htext⟩ := Option.isSome_iff_exists.1 htexts.1
  obtain ⟨text', htext'⟩ := Option.isSome_iff_exists.1 htexts.2
  obtain ⟨map, dists, hmap, hdists, hcost⟩ := (costs_between_addresses hinit
    (.cons trivial hreact (.nil s)) hview loadable_tenPrefixes tenText_numeric (fun _ => 0)
    (fun _ _ => false) (fun _ _ => Finset.mem_toList) .fin lowBits (fun _ => 64) hfit
    costsFit_tenView).2.2 6 6 text text' htext htext' [text] [text'] _ _ (by simp) (.inl rfl) (by simp)
    (.inr rfl) (ISPPIDMap.ofPrefixes (fun _ _ => false) []) (ISPPDistanceMap.mk [])
  exact ⟨s, hview, text, text', htext, htext', map, dists, hmap, hdists, hcost _ _ _ _⟩

end Alto
