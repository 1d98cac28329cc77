import Mathlib
import Alto.Lib.Loops
import Alto.Portal.MLUPlugin
import Alto.Verify.NetMerge
import Alto.Verify.PIDMatrix

/-!
# The edge pDistances of the MLU plugin

The plugin keeps its edge pDistances in matrices and ignores whether they take a value. They take one
for PIDs that are registered, and nothing in the plugin registers one.
-/

namespace Alto.Portal.MLUPlugin

open Lib PIDMatrix

variable {rnd : ℚ → Double} {plugin plugin' : MLUPlugin} {net : NetState} {S : StdSet PID}
  {e : NetEdge} {x y : NetEdge × EdgeProps} {v : Double}

/-! ## The registered PIDs -/

/-- The matrices are over a set of PIDs. -/
structure OnPids (S : StdSet PID) (plugin : MLUPlugin) : Prop where
  scaled : plugin.scaledEdgePDistances.HasPids S
  scaling : plugin.scaling.HasPids S
  published : plugin.edgePDistances.HasPids S

theorem onPids_new (mu : Double) : OnPids ∅ (new mu) := ⟨rfl, rfl, rfl⟩

theorem OnPids.setScaledEdgePDistance (h : OnPids S plugin) :
    OnPids S (plugin.setScaledEdgePDistance net e v) :=
  { h with scaled := h.scaled.setByPid }

theorem OnPids.setEdgeScaling (h : OnPids S plugin)
    (hrun : plugin.setEdgeScaling rnd net e v = some plugin') : OnPids S plugin' := by
  rw [MLUPlugin.setEdgeScaling] at hrun
  split at hrun
  · cases hrun
  · obtain rfl := Option.some.inj hrun
    exact { h.setScaledEdgePDistance with scaling := h.scaling.setByPid }

theorem OnPids.setScalings (h : OnPids S plugin) (rnd : ℚ → Double) (net : NetState)
    (edges : List (NetEdge × EdgeProps)) :
    OnPids S (setScalings rnd net edges plugin).2 := by
  induction edges generalizing plugin with
  | nil => exact h
  | cons x edges ih =>
    rw [MLUPlugin.setScalings]
    split
    · exact h
    · next hset => exact ih (h.setEdgeScaling hset)

theorem OnPids.updateScaledEdgePDistance (h : OnPids S plugin) (mlu : Double) :
    OnPids S (updateScaledEdgePDistance rnd plugin net mlu) := by
  have hstep : OnPids S (net.graph.edgeList.foldl (supergradient rnd net mlu) (plugin, 0)).1 :=
    foldl_inv (P := fun _ _ (acc : MLUPlugin × Double) => OnPids S acc.1) (fun _ _ _ _ h => h.setScaledEdgePDistance) h
  have hproject := foldl_inv (g := project rnd net (net.graph.edgeList.foldl
      (supergradient rnd net mlu) (plugin, 0)).2 net.graph.edgeList.length)
    (P := fun _ _ plugin => OnPids S plugin) (fun _ _ _ _ h => h.setScaledEdgePDistance)
    (l := net.graph.edgeList) hstep
  exact foldl_inv (g := publish rnd net) (P := fun _ _ plugin => OnPids S plugin)
    (fun _ _ _ _ h => { h with published := h.published.setByPid }) hproject

theorem OnPids.computePDistances (h : OnPids S plugin) :
    OnPids S (computePDistances rnd plugin net).2 := by
  have hset := h.setScalings rnd net net.graph.edgeList
  rw [MLUPlugin.computePDistances]
  split
  · next heq =>
    rw [heq] at hset
    exact hset
  · next plugin' heq =>
    rw [heq] at hset
    have halpha : OnPids S { plugin' with alpha := computeMlu rnd net } :=
      ⟨hset.scaled, hset.scaling, hset.published⟩
    exact halpha.updateScaledEdgePDistance _

/-! ## What a call promises -/

/-- A state with edges, positive capacities and a PID for each vertex. -/
structure Sane (net : NetState) : Prop where
  edges : net.graph.edgeList ≠ []
  capacity : ∀ x ∈ net.graph.edgeList, ∃ t c, x.2.traffic = .fin t ∧ x.2.capacity = .fin c ∧ 0 < c
  pids : ∀ x ∈ net.graph.edgeList, (net.getPid x.1.src).isSome ∧ (net.getPid x.1.dst).isSome
  distinct : ∀ u v pid, net.getPid u = some pid → net.getPid v = some pid → u = v

/-- The scaled pDistances are non-negative and sum to 1, and the published ones are these divided by
the capacities. -/
structure Balanced (net : NetState) (plugin : MLUPlugin) : Prop where
  defined : ∀ x ∈ net.graph.edgeList, ∃ q, plugin.getScaledEdgePDistance net x.1 = .fin q ∧ 0 ≤ q
  sum : Double.sum .fin
    (net.graph.edgeList.map fun x => plugin.getScaledEdgePDistance net x.1) = 1
  published : ∀ x ∈ net.graph.edgeList,
    plugin.edgePDistances.getByPid (edgePids net x.1).1 (edgePids net x.1).2 .nan =
      (plugin.getScaledEdgePDistance net x.1).div .fin (plugin.getEdgeScaling net x.1)
  factor : ∀ x ∈ net.graph.edgeList, plugin.getEdgeScaling net x.1 = x.2.capacity

/-- An edge whose capacity is refused as a factor. -/
def SmallEdge (net : NetState) : Prop := ∃ x ∈ net.graph.edgeList, x.2.capacity.lt eps = true

/-- Both PIDs of each edge are registered. -/
def Registered (S : StdSet PID) (net : NetState) : Prop :=
  ∀ x ∈ net.graph.edgeList, (edgePids net x.1).1 ∈ S ∧ (edgePids net x.1).2 ∈ S

/-- The matrices do not have the published value of an edge that is not registered. -/
theorem Balanced.registered (h : Balanced net plugin) (hpids : OnPids S plugin) :
    Registered S net := by
  intro x hx
  by_contra hno
  have hpublished := h.published x hx
  rw [hpids.published.getByPid_of_not_mem hno, getScaledEdgePDistance,
    hpids.scaled.getByPid_of_not_mem hno, getEdgeScaling,
    hpids.scaling.getByPid_of_not_mem hno] at hpublished
  cases hpublished

theorem setScalings_fst (rnd : ℚ → Double) (net : NetState) (edges : List (NetEdge × EdgeProps)) (plugin : MLUPlugin) :
    (setScalings rnd net edges plugin).1 = true ↔ ∀ x ∈ edges, x.2.capacity.lt eps = false := by
  induction edges generalizing plugin with
  | nil => simp [setScalings]
  | cons x edges ih =>
    rw [setScalings, setEdgeScaling, List.forall_mem_cons]
    cases hlt : x.2.capacity.lt eps with
    | true => simp
    | false => simpa using ih _

/-- The call succeeds unless a capacity is refused. -/
theorem computePDistances_eq_zero :
    (computePDistances rnd plugin net).1 = 0 ↔ ¬ SmallEdge net := by
  have hsmall : ¬ SmallEdge net ↔ ∀ x ∈ net.graph.edgeList, x.2.capacity.lt eps = false := by
    simp [SmallEdge]
  rw [hsmall, ← setScalings_fst rnd net net.graph.edgeList plugin,
    computePDistances]
  split
  · next heq => simp [heq]
  · next heq => simp [heq]

/-! ## The values of the matrices -/

/-- What is known of the values of a matrix, defaults included, is kept by a value of that kind. -/
theorem keeps_setByPid {m : PIDMatrix} (h : m.HasPids S) {w : Double} {P : Double → Prop}
    (hm : ∀ a b, P (m.getByPid a b w)) (hv : P v) (hnan : v ≠ .nan) {s d : PID} (a b : PID) :
    P (((m.setByPid s d v).2).getByPid a b w) := by
  by_cases hmem : s ∈ S ∧ d ∈ S
  · rw [h.getByPid_setByPid hmem.1 hmem.2 hnan]
    split
    · exact hv
    · exact hm a b
  · rw [h.setByPid_of_not_mem hmem]
    exact hm a b

/-- A number that is not negative. -/
def NonNeg (v : Double) : Prop := ∃ q, v = .fin q ∧ 0 ≤ q

/-- A positive number. -/
def Pos (v : Double) : Prop := ∃ q, v = .fin q ∧ 0 < q

/-- The step size is a number, scaled pDistances are not negative and the factors are positive. -/
structure Fits (S : StdSet PID) (plugin : MLUPlugin) : Prop where
  pids : OnPids S plugin
  mu : ∃ q, plugin.mu = .fin q
  scaled : ∀ a b, NonNeg (plugin.scaledEdgePDistances.getByPid a b initPDistance)
  scaling : ∀ a b, Pos (plugin.scaling.getByPid a b initScaling)

theorem NonNeg.ne_nan (h : NonNeg v) : v ≠ .nan := by
  obtain ⟨q, rfl, -⟩ := h
  simp

theorem Fits.setScaledEdgePDistance (h : Fits S plugin) (hv : NonNeg v) :
    Fits S (plugin.setScaledEdgePDistance net e v) :=
  { h with
    pids := h.pids.setScaledEdgePDistance
    scaled := keeps_setByPid h.pids.scaled h.scaled hv hv.ne_nan }

theorem NonNeg.div {c : Double} (h : NonNeg v) (hc : Pos c) : NonNeg (v.div .fin c) := by
  obtain ⟨q, rfl, hq⟩ := h
  obtain ⟨r, rfl, hr⟩ := hc
  exact ⟨q / r, if_neg hr.ne', div_nonneg hq hr.le⟩

theorem NonNeg.mul {c : Double} (h : NonNeg v) (hc : Pos c) : NonNeg (v.mul .fin c) := by
  obtain ⟨q, rfl, hq⟩ := h
  obtain ⟨r, rfl, hr⟩ := hc
  exact ⟨q * r, rfl, mul_nonneg hq hr.le⟩

theorem Fits.setEdgeScaling (h : Fits S plugin) (hv : Pos v)
    (hrun : plugin.setEdgeScaling .fin net e v = some plugin') : Fits S plugin' := by
  have hscaled : Fits S (plugin.setScaledEdgePDistance net e _) := h.setScaledEdgePDistance
    (((h.scaled (edgePids net e).1 (edgePids net e).2).div (h.scaling (edgePids net e).1 (edgePids net e).2)).mul hv)
  rw [MLUPlugin.setEdgeScaling] at hrun
  split at hrun
  · cases hrun
  · obtain rfl := Option.some.inj hrun
    refine { hscaled with
      pids := { hscaled.pids with scaling := h.pids.scaling.setByPid }
      scaling := keeps_setByPid h.pids.scaling h.scaling hv ?_ }
    obtain ⟨q, rfl, -⟩ := hv
    simp

theorem Sane.pos (h : Sane net) (hx : x ∈ net.graph.edgeList) : Pos x.2.capacity := by
  obtain ⟨-, c, -, hc, hpos⟩ := h.capacity x hx
  exact ⟨c, hc, hpos⟩

theorem Fits.setScalings (h : Fits S plugin) {edges : List (NetEdge × EdgeProps)}
    (hpos : ∀ x ∈ edges, Pos x.2.capacity) : Fits S (setScalings .fin net edges plugin).2 := by
  induction edges generalizing plugin with
  | nil => exact h
  | cons x edges ih =>
    rw [MLUPlugin.setScalings]
    split
    · exact h
    · next hset =>
      exact ih (h.setEdgeScaling (hpos x List.mem_cons_self) hset) fun y hy =>
        hpos y (List.mem_cons_of_mem _ hy)

/-- The link utilizations are numbers, and so is their maximum. -/
theorem computeMlu_fin (h : Sane net) : ∃ q, computeMlu .fin net = .fin q := by
  have hutil : ∀ x ∈ net.graph.edgeList, ∃ q, x.2.traffic.div .fin x.2.capacity = .fin q := by
    intro x hx
    obtain ⟨t, c, ht, hc, hpos⟩ := h.capacity x hx
    exact ⟨t / c, by rw [ht, hc]; exact if_neg hpos.ne'⟩
  refine List.foldlRecOn (motive := fun v => ∃ q, v = Double.fin q) _ _ ⟨0, rfl⟩ fun v hv x hx => ?_
  dsimp only
  split
  · exact hutil x hx
  · exact hv

/-- The clamped step of an edge. -/
def stepped (net : NetState) (mlu : Double) (plugin : MLUPlugin) (x : NetEdge × EdgeProps) : Double :=
  let p := (plugin.getScaledEdgePDistance net x.1).add .fin
    (plugin.mu.mul .fin ((x.2.traffic.div .fin x.2.capacity).sub .fin mlu))
  if p.isNeg then 0 else p

theorem supergradient_eq (mlu : Double) (acc : MLUPlugin × Double) (x : NetEdge × EdgeProps) :
    supergradient .fin net mlu acc x =
      (acc.1.setScaledEdgePDistance net x.1 (stepped net mlu acc.1 x),
        acc.2.add .fin (stepped net mlu acc.1 x)) := rfl

theorem nonNeg_stepped (h : Fits S plugin) (hsane : Sane net) (hx : x ∈ net.graph.edgeList)
    {mlu : Double} (hmlu : ∃ q, mlu = .fin q) : NonNeg (stepped net mlu plugin x) := by
  obtain ⟨q, hq, -⟩ := h.scaled (edgePids net x.1).1 (edgePids net x.1).2
  obtain ⟨m, hm⟩ := h.mu
  obtain ⟨t, c, ht, hc, hpos⟩ := hsane.capacity x hx
  obtain ⟨a, rfl⟩ := hmlu
  have hstep : (plugin.getScaledEdgePDistance net x.1).add .fin
      (plugin.mu.mul .fin ((x.2.traffic.div .fin x.2.capacity).sub .fin (.fin a))) =
        .fin (q + m * (t / c + -a)) := by
    have hutil : (Double.fin t).div .fin (.fin c) = .fin (t / c) := if_neg hpos.ne'
    rw [getScaledEdgePDistance, hq, hm, ht, hc, hutil]
    rfl
  rw [stepped, hstep]
  split
  · exact ⟨0, rfl, le_rfl⟩
  · next hneg => exact ⟨_, rfl, not_lt.1 (by simpa [Double.isNeg] using hneg)⟩

/-! ## The loops over registered edges -/

/-- The number of a double. -/
def num : Double → ℚ
  | .fin q => q
  | _ => 0

theorem NonNeg.fin_num (h : NonNeg v) : v = .fin (num v) := by
  obtain ⟨q, rfl, -⟩ := h
  rfl

theorem NonNeg.num_nonneg (h : NonNeg v) : 0 ≤ num v := by
  obtain ⟨q, rfl, hq⟩ := h
  exact hq

/-- Two edges of a state with the same PIDs are one. -/
theorem Sane.inj (h : Sane net) (hx : x ∈ net.graph.edgeList) (hy : y ∈ net.graph.edgeList)
    (heq : edgePids net x.1 = edgePids net y.1) : x = y := by
  have hend : ∀ {u v : NetVertex}, (net.getPid u).isSome → (net.getPid v).isSome →
      (net.getPid u).getD default = (net.getPid v).getD default → u = v := by
    intro u v hu hv huv
    obtain ⟨p, hp⟩ := Option.isSome_iff_exists.1 hu
    obtain ⟨q, hq⟩ := Option.isSome_iff_exists.1 hv
    rw [hp, hq] at huv
    exact h.distinct u v p hp (by rw [hq, show p = q from huv])
  obtain ⟨hsrc, hdst⟩ := Prod.mk.inj heq
  have hsrc := hend (h.pids x hx).1 (h.pids y hy).1 hsrc
  have hdst := hend (h.pids x hx).2 (h.pids y hy).2 hdst
  obtain ⟨k, hk, rfl⟩ := List.mem_map.1 ((NetState.edgeList_perm _).mem_iff.1 hx)
  obtain ⟨l, hl, rfl⟩ := List.mem_map.1 ((NetState.edgeList_perm _).mem_iff.1 hy)
  have hkey : k.1 = l.1 := by
    rw [← toLex_ofLex k.1, ← toLex_ofLex l.1]
    exact congrArg toLex (Prod.ext hsrc hdst)
  have hk := Std.ExtTreeMap.mem_toList_iff_getElem?_eq_some.1 hk
  have hl := Std.ExtTreeMap.mem_toList_iff_getElem?_eq_some.1 hl
  rw [hkey, hl] at hk
  rw [show k = l from Prod.ext hkey (Option.some.inj hk).symm]

theorem nodup_edgeList : net.graph.edgeList.Nodup := by
  rw [(NetState.edgeList_perm _).nodup_iff]
  refine List.Nodup.map_on ?_ ?_
  · intro k hk l hl heq
    have hk := Std.ExtTreeMap.mem_toList_iff_getElem?_eq_some.1 hk
    have hl := Std.ExtTreeMap.mem_toList_iff_getElem?_eq_some.1 hl
    have hkey : k.1 = l.1 := by
      rw [← toLex_ofLex k.1, ← toLex_ofLex l.1]
      simp only [Prod.mk.injEq, NetEdge.mk.injEq] at heq
      exact congrArg toLex (Prod.ext heq.1.1 heq.1.2.1)
    rw [hkey, hl] at hk
    exact Prod.ext hkey (Option.some.inj hk).symm
  · exact (Std.ExtTreeMap.distinct_keys_toList (t := net.graph.edges)).imp fun h heq =>
      h (by rw [heq]; exact Std.ReflCmp.compare_self)

section Loops

variable (hsane : Sane net) (hreg : Registered S net)
include hsane hreg

/-- A value that is set for an edge is not that of another one. -/
theorem getByPid_set {m : PIDMatrix} (h : m.HasPids S) (hv : v ≠ .nan) {w : Double}
    (hx : x ∈ net.graph.edgeList) (hy : y ∈ net.graph.edgeList) :
    ((m.setByPid (edgePids net x.1).1 (edgePids net x.1).2 v).2).getByPid (edgePids net y.1).1
        (edgePids net y.1).2 w =
      if x = y then v else m.getByPid (edgePids net y.1).1 (edgePids net y.1).2 w := by
  rw [h.getByPid_setByPid (hreg x hx).1 (hreg x hx).2 hv]
  by_cases heq : x = y
  · subst heq
    rw [if_pos ⟨rfl, rfl⟩, if_pos rfl]
  · rw [if_neg heq, if_neg fun h => heq (hsane.inj hx hy (Prod.ext h.1 h.2))]

theorem getScaled_set (h : OnPids S plugin) (hv : v ≠ .nan) (hx : x ∈ net.graph.edgeList)
    (hy : y ∈ net.graph.edgeList) :
    (plugin.setScaledEdgePDistance net x.1 v).getScaledEdgePDistance net y.1 =
      if x = y then v else plugin.getScaledEdgePDistance net y.1 :=
  getByPid_set hsane hreg h.scaled hv hx hy

/-- After the first loop the factor of an edge is its capacity. -/
theorem setScalings_scaling {edges : List (NetEdge × EdgeProps)} (h : Fits S plugin)
    (hedges : ∀ x ∈ edges, x ∈ net.graph.edgeList) (hnodup : edges.Nodup)
    (hrun : setScalings .fin net edges plugin = (true, plugin')) (hy : y ∈ net.graph.edgeList)
    (w : Double) :
    plugin'.scaling.getByPid (edgePids net y.1).1 (edgePids net y.1).2 w =
      if y ∈ edges then y.2.capacity
      else plugin.scaling.getByPid (edgePids net y.1).1 (edgePids net y.1).2 w := by
  induction edges generalizing plugin with
  | nil =>
    obtain rfl := (Prod.mk.inj hrun).2
    rfl
  | cons x edges ih =>
    obtain ⟨hx, hnodup⟩ := List.nodup_cons.1 hnodup
    have hmem := hedges x List.mem_cons_self
    have hpos := hsane.pos hmem
    rw [setScalings] at hrun
    split at hrun
    · cases hrun
    · next next hset =>
      rw [ih (h.setEdgeScaling hpos hset) (fun z hz => hedges z (List.mem_cons_of_mem _ hz)) hnodup
        hrun]
      have hne : x.2.capacity ≠ .nan := by
        obtain ⟨q, hq, -⟩ := hpos
        rw [hq]
        simp
      rw [setEdgeScaling] at hset
      split at hset
      · cases hset
      · obtain rfl := Option.some.inj hset
        have hget := getByPid_set hsane hreg h.pids.scaling hne (w := w) hmem hy
        by_cases hyedges : y ∈ edges
        · rw [if_pos hyedges, if_pos (List.mem_cons_of_mem _ hyedges)]
        · rw [if_neg hyedges]
          refine hget.trans ?_
          by_cases hxy : x = y
          · subst hxy
            rw [if_pos rfl, if_pos List.mem_cons_self]
          · rw [if_neg hxy, if_neg fun h => (List.mem_cons.1 h).elim (fun h => hxy h.symm) hyedges]

/-- The sum of the first loop of the update is that of the values it leaves. -/
theorem supergradient_sum (h : Fits S plugin) {mlu : Double} (hmlu : ∃ q, mlu = .fin q)
    {acc : MLUPlugin × Double}
    (hacc : net.graph.edgeList.foldl (supergradient .fin net mlu) (plugin, 0) = acc) :
    Fits S acc.1 ∧ acc.1.scaling = plugin.scaling ∧
      acc.2 = .fin (net.graph.edgeList.map fun x =>
        num (acc.1.getScaledEdgePDistance net x.1)).sum := by
  have hloop := foldl_inv (g := supergradient .fin net mlu)
    (P := fun done rest (acc : MLUPlugin × Double) => done ++ rest = net.graph.edgeList ∧
      Fits S acc.1 ∧ acc.1.scaling = plugin.scaling ∧
      acc.2 = .fin (done.map fun x => num (acc.1.getScaledEdgePDistance net x.1)).sum)
    (l := net.graph.edgeList) (s := (plugin, 0)) ?_ ⟨rfl, h, rfl, rfl⟩
  · rw [hacc] at hloop
    exact hloop.2
  · rintro done x rest ⟨plugin', sum⟩ ⟨hlist, hfits, hscaling, hsum⟩
    have hx : x ∈ net.graph.edgeList := hlist ▸ List.mem_append_right _ List.mem_cons_self
    have hstep := nonNeg_stepped hfits hsane hx hmlu
    have hother : ∀ y ∈ done, ¬ x = y := by
      intro y hy heq
      have hnodup : (done ++ x :: rest).Nodup := hlist ▸ nodup_edgeList
      exact (List.nodup_append.1 hnodup).2.2 y hy x List.mem_cons_self heq.symm
    rw [supergradient_eq]
    refine ⟨by simpa using hlist, hfits.setScaledEdgePDistance hstep, hscaling, ?_⟩
    dsimp only at hfits hstep hsum ⊢
    have hsame : (done.map fun y => num ((plugin'.setScaledEdgePDistance net x.1
          (stepped net mlu plugin' x)).getScaledEdgePDistance net y.1)) =
        done.map fun y => num (plugin'.getScaledEdgePDistance net y.1) := by
      refine List.map_congr_left fun y hy => ?_
      rw [getScaled_set hsane hreg hfits.pids hstep.ne_nan hx
        (hlist ▸ List.mem_append_left _ hy), if_neg (hother y hy)]
    rw [List.map_append, List.sum_append, hsame, List.map_singleton, List.sum_singleton,
      getScaled_set hsane hreg hfits.pids hstep.ne_nan hx hx, if_pos rfl, hsum, hstep.fin_num]
    rfl

/-- The value that the projection gives an edge. -/
def share (sum : ℚ) (n : Nat) (q : ℚ) : ℚ := if 1 / 10 ^ 12 < sum then q / sum else 1 / n

omit hsane hreg in
theorem share_nonneg {sum q : ℚ} {n : Nat} (hq : 0 ≤ q) : 0 ≤ share sum n q := by
  unfold share
  split
  · next h => exact div_nonneg hq (le_of_lt (lt_trans (by norm_num) h))
  · exact div_nonneg zero_le_one (Nat.cast_nonneg n)

/-- After the projection each edge has its share. -/
theorem project_share (h : Fits S plugin) (sum : ℚ) (hnum : net.graph.edgeList.length ≠ 0) :
    let last := net.graph.edgeList.foldl
      (project .fin net (.fin sum) net.graph.edgeList.length) plugin
    Fits S last ∧ last.scaling = plugin.scaling ∧
      ∀ x ∈ net.graph.edgeList, ∀ w,
        last.scaledEdgePDistances.getByPid (edgePids net x.1).1 (edgePids net x.1).2 w =
          .fin (share sum net.graph.edgeList.length
            (num (plugin.getScaledEdgePDistance net x.1))) := by
  have hloop := foldl_inv (g := project .fin net (.fin sum) net.graph.edgeList.length)
    (P := fun done rest (last : MLUPlugin) => done ++ rest = net.graph.edgeList ∧ Fits S last ∧
      last.scaling = plugin.scaling ∧
      (∀ x ∈ done, ∀ w,
        last.scaledEdgePDistances.getByPid (edgePids net x.1).1 (edgePids net x.1).2 w =
          .fin (share sum net.graph.edgeList.length
            (num (plugin.getScaledEdgePDistance net x.1)))) ∧
      ∀ x ∈ rest, last.getScaledEdgePDistance net x.1 = plugin.getScaledEdgePDistance net x.1)
    (l := net.graph.edgeList) (s := plugin) ?_
    ⟨rfl, h, rfl, fun _ hx => absurd hx List.not_mem_nil, fun _ _ => rfl⟩
  · exact ⟨hloop.2.1, hloop.2.2.1, hloop.2.2.2.1⟩
  · rintro done x rest last ⟨hlist, hfits, hscaling, hdone, hrest⟩
    have hx : x ∈ net.graph.edgeList := hlist ▸ List.mem_append_right _ List.mem_cons_self
    have hold : NonNeg (plugin.getScaledEdgePDistance net x.1) := h.scaled _ _
    have hvalue : (if eps.lt (.fin sum) then (last.getScaledEdgePDistance net x.1).div .fin (.fin sum)
          else (1 : Double).div .fin (.fin net.graph.edgeList.length)) =
        .fin (share sum net.graph.edgeList.length
          (num (plugin.getScaledEdgePDistance net x.1))) := by
      rw [hrest x List.mem_cons_self, hold.fin_num, share]
      by_cases hlt : 1 / 10 ^ 12 < sum
      · have hne : sum ≠ 0 := (lt_trans (by norm_num) hlt).ne'
        have heps : eps.lt (.fin sum) = true := decide_eq_true hlt
        rw [if_pos hlt, if_pos heps]
        exact if_neg hne
      · have heps : ¬ eps.lt (.fin sum) = true := fun h => hlt (of_decide_eq_true h)
        rw [if_neg hlt, if_neg heps]
        exact if_neg (by exact_mod_cast hnum)
    have hshare : NonNeg (.fin (share sum net.graph.edgeList.length
        (num (plugin.getScaledEdgePDistance net x.1)))) :=
      ⟨_, rfl, share_nonneg hold.num_nonneg⟩
    have hnodup : (done ++ x :: rest).Nodup := hlist ▸ nodup_edgeList
    obtain ⟨-, hcons, happ⟩ := List.nodup_append.1 hnodup
    rw [project, hvalue]
    refine ⟨by simpa using hlist, hfits.setScaledEdgePDistance hshare, hscaling, fun y hy w => ?_,
      fun y hy => ?_⟩
    · have hymem : y ∈ net.graph.edgeList := by
        rw [← hlist]
        simp only [List.mem_append, List.mem_cons, List.not_mem_nil, or_false] at hy ⊢
        tauto
      refine (getByPid_set hsane hreg hfits.pids.scaled hshare.ne_nan hx hymem).trans ?_
      split
      · next heq => rw [heq]
      · next heq =>
        rcases List.mem_append.1 hy with hy | hy
        · exact hdone y hy w
        · exact absurd (List.mem_singleton.1 hy).symm heq
    · rw [getScaled_set hsane hreg hfits.pids hshare.ne_nan hx
        (hlist ▸ List.mem_append_right _ (List.mem_cons_of_mem _ hy)),
        if_neg fun heq : x = y => (List.nodup_cons.1 hcons).1 (heq ▸ hy)]
      exact hrest y (List.mem_cons_of_mem _ hy)

/-- The last loop publishes the unscaled value of each edge. -/
theorem publish_published (h : OnPids S plugin)
    (hvalue : ∀ x ∈ net.graph.edgeList,
      (plugin.scaledEdgePDistances.getByPid (edgePids net x.1).1 (edgePids net x.1).2 .nan).div
        .fin (plugin.scaling.getByPid (edgePids net x.1).1 (edgePids net x.1).2 .nan) ≠ .nan) :
    let last := net.graph.edgeList.foldl (publish .fin net) plugin
    last.scaledEdgePDistances = plugin.scaledEdgePDistances ∧ last.scaling = plugin.scaling ∧
      ∀ x ∈ net.graph.edgeList,
        last.edgePDistances.getByPid (edgePids net x.1).1 (edgePids net x.1).2 .nan =
          (plugin.scaledEdgePDistances.getByPid (edgePids net x.1).1 (edgePids net x.1).2 .nan).div
            .fin (plugin.scaling.getByPid (edgePids net x.1).1 (edgePids net x.1).2 .nan) := by
  have hloop := foldl_inv (g := publish .fin net)
    (P := fun done rest (last : MLUPlugin) => done ++ rest = net.graph.edgeList ∧
      last.edgePDistances.HasPids S ∧ last.scaledEdgePDistances = plugin.scaledEdgePDistances ∧
      last.scaling = plugin.scaling ∧
      ∀ x ∈ done, last.edgePDistances.getByPid (edgePids net x.1).1 (edgePids net x.1).2 .nan =
        (plugin.scaledEdgePDistances.getByPid (edgePids net x.1).1 (edgePids net x.1).2 .nan).div
          .fin (plugin.scaling.getByPid (edgePids net x.1).1 (edgePids net x.1).2 .nan))
    (l := net.graph.edgeList) (s := plugin) ?_
    ⟨rfl, h.published, rfl, rfl, fun _ hx => absurd hx List.not_mem_nil⟩
  · exact hloop.2.2
  · rintro done x rest last ⟨hlist, hpids, hscaled, hscaling, hdone⟩
    have hx : x ∈ net.graph.edgeList := hlist ▸ List.mem_append_right _ List.mem_cons_self
    refine ⟨by simpa using hlist, hpids.setByPid, hscaled, hscaling, fun y hy => ?_⟩
    have hymem : y ∈ net.graph.edgeList := by
      rw [← hlist]
      simp only [List.mem_append, List.mem_cons, List.not_mem_nil, or_false] at hy ⊢
      tauto
    simp only [publish, hscaled, hscaling]
    rw [getByPid_set hsane hreg hpids (hvalue x hx) hx hymem]
    split
    · next heq => rw [heq]
    · next heq =>
      rcases List.mem_append.1 hy with hy | hy
      · exact hdone y hy
      · exact absurd (List.mem_singleton.1 hy).symm heq

omit hsane hreg in
/-- The shares of values sum to 1. -/
theorem sum_share {l : List (NetEdge × EdgeProps)} (hl : l ≠ []) (f : NetEdge × EdgeProps → ℚ) :
    (l.map fun x => share (l.map f).sum l.length (f x)).sum = 1 := by
  have hlen : (l.length : ℚ) ≠ 0 := by
    exact_mod_cast fun h => hl (List.length_eq_zero_iff.1 h)
  by_cases hlt : 1 / 10 ^ 12 < (l.map f).sum
  · have hne : (l.map f).sum ≠ 0 := (lt_trans (by norm_num) hlt).ne'
    have hdiv : ∀ (l : List (NetEdge × EdgeProps)) (c : ℚ),
        (l.map fun x => f x / c).sum = (l.map f).sum / c := by
      intro l c
      induction l with
      | nil => simp
      | cons x l ih => rw [List.map_cons, List.map_cons, List.sum_cons, List.sum_cons, ih, add_div]
    simp only [share, if_pos hlt, hdiv, div_self hne]
  · simp only [share, if_neg hlt, List.map_const', List.sum_replicate, nsmul_eq_mul]
    exact mul_one_div_cancel hlen

/-- The update balances the pDistances, given the factors. -/
theorem balanced_update (h : Fits S plugin) {mlu : Double} (hmlu : ∃ q, mlu = .fin q)
    (hfactor : ∀ x ∈ net.graph.edgeList, ∀ w,
      plugin.scaling.getByPid (edgePids net x.1).1 (edgePids net x.1).2 w = x.2.capacity) :
    Balanced net (updateScaledEdgePDistance .fin plugin net mlu) := by
  have hlen : net.graph.edgeList.length ≠ 0 := fun hlen =>
    hsane.edges (List.length_eq_zero_iff.1 hlen)
  rw [updateScaledEdgePDistance]
  obtain ⟨hfits, hscaling, hsum⟩ := supergradient_sum hsane hreg h hmlu rfl
  split
  next stepped sum heq =>
    rw [heq] at hfits hscaling hsum
    dsimp only at hfits hscaling hsum
    subst hsum
    obtain ⟨hfits', hscaling', hshare⟩ := project_share hsane hreg hfits
      (net.graph.edgeList.map fun x => num (stepped.getScaledEdgePDistance net x.1)).sum hlen
    dsimp only
    generalize net.graph.edgeList.foldl (project _ _ _ _) stepped = projected at *
    have hfactor' : ∀ x ∈ net.graph.edgeList, ∀ w,
        projected.scaling.getByPid (edgePids net x.1).1 (edgePids net x.1).2 w = x.2.capacity := by
      rw [hscaling', hscaling]
      exact hfactor
    have hnonneg : ∀ x : NetEdge × EdgeProps, NonNeg (stepped.getScaledEdgePDistance net x.1) :=
      fun x => hfits.scaled _ _
    obtain ⟨hlast, hlastScaling, hpublished⟩ := publish_published hsane hreg hfits'.pids
      fun x hx => by
        rw [hshare x hx, hfactor' x hx]
        exact (NonNeg.div ⟨_, rfl, share_nonneg (hnonneg x).num_nonneg⟩ (hsane.pos hx)).ne_nan
    generalize net.graph.edgeList.foldl (publish _ _) projected = last at *
    have hget : ∀ x ∈ net.graph.edgeList, ∀ w,
        last.scaledEdgePDistances.getByPid (edgePids net x.1).1 (edgePids net x.1).2 w = _ :=
      hlast ▸ hshare
    refine ⟨fun x hx => ⟨_, hget x hx _, share_nonneg (hnonneg x).num_nonneg⟩, ?_, fun x hx => ?_,
      fun x hx => ?_⟩
    · have hmap : (net.graph.edgeList.map fun x => last.getScaledEdgePDistance net x.1) =
          (net.graph.edgeList.map fun x : NetEdge × EdgeProps => share (net.graph.edgeList.map fun x =>
            num (stepped.getScaledEdgePDistance net x.1)).sum net.graph.edgeList.length
              (num (stepped.getScaledEdgePDistance net x.1))).map .fin := by
        rw [List.map_map]
        exact List.map_congr_left fun x hx => hget x hx _
      rw [hmap, Double.sum_fin, sum_share hsane.edges]
      rfl
    · have hscaled : last.getScaledEdgePDistance net x.1 = _ := hget x hx _
      rw [hpublished x hx, hshare x hx, hfactor' x hx, hscaled, getEdgeScaling, hlastScaling,
        hfactor' x hx]
    · rw [getEdgeScaling, hlastScaling, hfactor' x hx]

/-- Where the PIDs of its edges are registered, a call that succeeds does what it promises. -/
theorem balanced_of_registered (h : Fits S plugin) (hsmall : ¬ SmallEdge net) :
    Balanced net (computePDistances .fin plugin net).2 := by
  have hset := setScalings_fst .fin net net.graph.edgeList plugin
  have hpos : Fits S (setScalings .fin net net.graph.edgeList plugin).2 :=
    h.setScalings fun x hx => hsane.pos hx
  rw [computePDistances]
  split
  · next heq =>
    rw [heq] at hset
    exact absurd (hset.2 (by simpa [SmallEdge] using hsmall)) (by simp)
  · next plugin₁ heq =>
    rw [heq] at hpos
    have halpha : Fits S { plugin₁ with alpha := computeMlu .fin net } :=
      ⟨⟨hpos.pids.scaled, hpos.pids.scaling, hpos.pids.published⟩, hpos.mu, hpos.scaled,
        hpos.scaling⟩
    refine balanced_update hsane hreg halpha (computeMlu_fin hsane) fun x hx w => ?_
    have hscaling := setScalings_scaling hsane hreg h (fun _ hx => hx) nodup_edgeList heq hx w
    rwa [if_pos hx] at hscaling

end Loops

/-! ## Sequences of calls -/

/-- A call of the plugin that changes it. -/
inductive Call where
  | computePDistances (net : NetState)
  | setMu (mu : Double)

/-- The plugin after a call, in exact arithmetic. -/
def step (plugin : MLUPlugin) : Call → MLUPlugin
  | .computePDistances net => (computePDistances .fin plugin net).2
  | .setMu mu => plugin.setMu mu

/-- In a sequence of calls, each computation that succeeds on a sane state does what it promises. -/
def Meets : MLUPlugin → List Call → Prop
  | _, [] => True
  | plugin, call :: calls =>
    (∀ net, call = .computePDistances net → Sane net →
      (computePDistances .fin plugin net).1 = 0 → Balanced net (plugin.step call)) ∧
    Meets (plugin.step call) calls

theorem OnPids.step (h : OnPids S plugin) (call : Call) : OnPids S (plugin.step call) := by
  cases call with
  | computePDistances net => exact h.computePDistances
  | setMu mu => exact ⟨h.scaled, h.scaling, h.published⟩

/-- A plugin without registered PIDs gets none: a computation that succeeds never does what it
promises. -/
theorem OnPids.meets_iff (h : OnPids ∅ plugin) (calls : List Call) :
    Meets plugin calls ↔ ∀ net, .computePDistances net ∈ calls → Sane net → SmallEdge net := by
  induction calls generalizing plugin with
  | nil => exact ⟨fun _ net hnet => absurd hnet List.not_mem_nil, fun _ => trivial⟩
  | cons call calls ih =>
    rw [Meets, ih (h.step call)]
    have hcall : ∀ net, call = .computePDistances net → Sane net →
        (((MLUPlugin.computePDistances .fin plugin net).1 = 0 → Balanced net (plugin.step call)) ↔
          SmallEdge net) := by
      rintro net rfl hsane
      constructor
      · intro hmeets
        by_contra hsmall
        obtain ⟨x, hx⟩ := List.exists_mem_of_ne_nil _ hsane.edges
        have hreg := (hmeets (computePDistances_eq_zero.2 hsmall)).registered (h.step _) x hx
        exact Std.ExtTreeSet.not_mem_empty hreg.1
      · exact fun hsmall hzero => absurd hsmall (computePDistances_eq_zero.1 hzero)
    constructor
    · rintro ⟨hhead, htail⟩ net hnet hsane
      rcases List.mem_cons.1 hnet with heq | hnet
      · exact (hcall net heq.symm hsane).1 (hhead net heq.symm hsane)
      · exact htail net hnet hsane
    · intro hsmall
      exact ⟨fun net heq hsane => (hcall net heq hsane).2
          (hsmall net (heq ▸ List.mem_cons_self) hsane),
        fun net hnet => hsmall net (List.mem_cons_of_mem _ hnet)⟩

/-- A sequence of calls of a new plugin meets what is promised only if each computation on a sane state
fails, for a capacity below `EPS`. -/
theorem meets_iff_small (mu : Double) (calls : List Call) :
    Meets (new mu) calls ↔ ∀ net, .computePDistances net ∈ calls → Sane net → SmallEdge net :=
  (onPids_new mu).meets_iff calls

/-- Two nodes and a link. -/
def linkNet : NetState where
  graph :=
    { verts := ((∅ : StdMap NetVertex VertexProps).insert 0 ⟨false, "a", ⟨"isp", 0, false⟩⟩).insert 1
        ⟨false, "b", ⟨"isp", 1, false⟩⟩
      edges := (∅ : StdMap (NetVertex ×ₗ NetVertex) (Nat × EdgeProps)).insert (toLex (0, 1))
        (2, ⟨"", 0, 1⟩)
      next := 3 }
  nameVertMap := ∅
  nameEdgeMap := ∅

theorem edgeList_linkNet : linkNet.graph.edgeList = [(⟨0, 1, 2⟩, ⟨"", 0, 1⟩)] := by decide +kernel

theorem getPid_linkNet {u : NetVertex} {pid : PID} (h : linkNet.getPid u = some pid) :
    u = pid.num := by
  have hget : linkNet.getPid u = if 1 = u then some ⟨"isp", 1, false⟩
      else if 0 = u then some ⟨"isp", 0, false⟩ else none := by
    simp only [NetState.getPid, linkNet, StdMap.get_insert]
    split
    · rfl
    · split <;> rfl
  rw [hget] at h
  split at h
  · next hu => rw [← Option.some.inj h, hu]
  · split at h
    · next hu => rw [← Option.some.inj h, hu]
    · cases h

theorem sane_linkNet : Sane linkNet := by
  refine ⟨by simp [edgeList_linkNet], fun x hx => ?_, fun x hx => ?_, fun u v pid hu hv => ?_⟩
  · obtain rfl : x = _ := by simpa [edgeList_linkNet] using hx
    exact ⟨0, 1, rfl, rfl, zero_lt_one⟩
  · obtain rfl : x = _ := by simpa [edgeList_linkNet] using hx
    exact ⟨by decide +kernel, by decide +kernel⟩
  · rw [getPid_linkNet hu, getPid_linkNet hv]

/-- The first computation on a state with one link succeeds, and the scaled pDistance of the link is
0. -/
theorem first_computation_unbalanced : ¬ Meets (new 1) [.computePDistances linkNet] := by
  intro h
  obtain ⟨x, hx, hlt⟩ := ((onPids_new 1).meets_iff _).1 h linkNet List.mem_cons_self sane_linkNet
  obtain rfl : x = _ := by simpa [edgeList_linkNet] using hx
  exact absurd hlt (by decide +kernel)

end Alto.Portal.MLUPlugin
