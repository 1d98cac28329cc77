import Alto.Verify.FillPeers

/-!
# The counters of `fillPeers`

The wheel falls on the last entry for the greatest result of `rand`, unless sums of weights are rounded.
So an exhausted entry is drawn from when the last PID can run dry before the limit is reached while other
PIDs still have peers; or if rounding leaves a total weight below zero when the first PID has run dry.
-/

namespace Alto.Selection

open Common Lib App Guidance

variable {randMax : Nat} {Peer : Type} [LinearOrder Peer]

/-- The counters of `fillPeers` are the sums, and no entry was exhausted when it was drawn from. -/
structure Fill.Sound (fill : Fill) : Prop where
  totalPeercount : fill.totalPeercount = fill.peercount.sum
  totalWeight : fill.totalWeight = fill.weights.sum
  drawn : ∀ count ∈ fill.drawn, 0 < count

namespace Selector

variable {fp : Rounding} {n : Nat} {is : List Nat} {s : Selecting Peer} {weights : List ℚ}

/-- The arguments of `fillPeers` describe what is left of some PIDs. Each of them has peers and a
positive weight. -/
structure Filling (n : Nat) (s : Selecting Peer) (is : List Nat) (peercount : List Nat)
    (weights : List ℚ) : Prop where
  ready : s.helper.Ready n
  valid : ∀ i ∈ is, i < n
  nodup : is.Nodup
  peercount_eq : peercount = is.map fun i => (s.helper.left i).length
  peercount_pos : ∀ count ∈ peercount, 0 < count
  length_weights : weights.length = is.length
  weights_pos : ∀ w ∈ weights, 0 < w

/-- The counter of the peers does not wrap around, and there is no second PID, or the last one has as many
peers as are missing. -/
def Suffices (size : Nat) (peercount : List Nat) (maxPeers : Nat) : Prop :=
  peercount = [] ∨ peercount.sum < 2 ^ 32 ∧
    (peercount.length = 1 ∨ maxPeers ≤ size + peercount.getLast?.getD 0)

/-- In whatever order entries run dry before the end, the total weight does not fall below zero when the
first entry has. -/
def WeightHolds (fp : Rounding) (size : Nat) (peercount : List Nat) (weights : List ℚ)
    (maxPeers : Nat) : Prop :=
  ∀ order : List Nat, order.Nodup → 0 ∈ order → (∀ j ∈ order, j < peercount.length) →
    (order.map fun j => (peercount[j]?).getD 0).sum < peercount.sum →
    size + (order.map fun j => (peercount[j]?).getD 0).sum < maxPeers →
    0 ≤ dryTotal fp weights order

theorem weightHolds_of_exact (hexact : fp.ExactSums weights) (hpos : ∀ w ∈ weights, 0 ≤ w)
    (size : Nat) (peercount : List Nat) (maxPeers : Nat) :
    WeightHolds fp size peercount weights maxPeers := by
  intro order hnodup _ _ _ _
  rw [dryTotal_eq hexact hnodup]
  exact List.sum_nonneg (dryWeights_nonneg hpos order)

/-- The loop of `fillPeers` at the start of a round, after it has appended `out`. -/
structure AtRound (fp : Rounding) (weights : List ℚ) (n : Nat) (is : List Nat) (maxPeers : Nat)
    (s : Selecting Peer) (out : List Peer) (t : Selecting Peer) : Prop where
  counted : Counted n is s out t
  dry : ∃ order, RunsDry fp weights is order t
  drawn : ∀ count ∈ t.fill.drawn, 0 < count
  below : out = [] ∨ t.outPeers.length < maxPeers
  some_left : 0 < t.fill.peercount.sum
  kept : ∀ i, (s.helper.left i).length ≤ (t.helper.left i).length + out.length
  shrinks : ∀ i, (t.helper.left i).length ≤ (s.helper.left i).length

/-- If no sum is rounded the total weight is the sum. -/
theorem RunsDry.totalWeight {order : List Nat} {t : Selecting Peer}
    (hd : RunsDry fp weights is order t) (hexact : fp.ExactSums weights) :
    t.fill.totalWeight = t.fill.weights.sum := by
  rw [hd.total_eq, hd.weights_eq, dryTotal_eq hexact hd.nodup]

theorem AtRound.sound {maxPeers : Nat} {out : List Peer} {t : Selecting Peer}
    (h : AtRound fp weights n is maxPeers s out t) (hexact : fp.ExactSums weights) :
    t.fill.Sound := by
  obtain ⟨order, hd⟩ := h.dry
  exact ⟨h.counted.totalPeercount, hd.totalWeight hexact, h.drawn⟩

section Round

variable {maxPeers : Nat} {out : List Peer} {t t₂ : Selecting Peer}

theorem Counted.peercount_get (hc : Counted n is s out t) {i j : Nat} (hj : is[j]? = some i) :
    t.fill.peercount[j]? = some (t.helper.left i).length := by
  rw [hc.peercount, List.getElem?_map, hj, Option.map_some]

/-- The random point has the sign of the total weight. -/
theorem point_nonneg (r : Fin (randMax + 1)) {total : ℚ} (htotal : 0 ≤ total) :
    0 ≤ point fp r total :=
  fp.round_nonneg (mul_nonneg (fp.round_nonneg (by positivity)) htotal)

theorem point_nonpos (r : Fin (randMax + 1)) {total : ℚ} (htotal : total ≤ 0) :
    point fp r total ≤ 0 :=
  fp.round_nonpos (mul_nonpos_of_nonneg_of_nonpos (fp.round_nonneg (by positivity)) htotal)

/-- The wheel stops at an entry with peers if the last one has some, and so does the first one if the
total weight is below zero. -/
theorem Counted.wheel_left (hc : Counted n is s out t)
    (hfirst : 0 ≤ t.fill.totalWeight ∨ ∀ i, is[0]? = some i → t.helper.left i ≠ [])
    (hlast : ∀ i, is[is.length - 1]? = some i → t.helper.left i ≠ []) (r : Fin (randMax + 1)) {i : Nat}
    (hi : is[wheel fp (point fp r t.fill.totalWeight) t.fill.weights]? = some i) :
    t.helper.left i ≠ [] := by
  by_cases htotal : 0 ≤ t.fill.totalWeight
  · have hstop : (∃ w, t.fill.weights[wheel fp (point fp r t.fill.totalWeight) t.fill.weights]? =
        some w ∧ 0 < w) ∨ _ = t.fill.weights.length - 1 := wheel_cases (point_nonneg r htotal)
    rcases hstop with ⟨w, hw, hpos⟩ | hend
    · exact (hc.weight _ i w hi hw).1 hpos
    · rw [hend, hc.length] at hi
      exact hlast i hi
  · have hfirst := hfirst.resolve_left htotal
    cases hweights : t.fill.weights with
    | nil =>
      rw [hweights] at hi
      exact hfirst i hi
    | cons w weights =>
      obtain ⟨i₀, hi₀⟩ : ∃ i₀, is[0]? = some i₀ := by
        have hlen := hc.length
        rw [hweights, List.length_cons] at hlen
        exact ⟨_, List.getElem?_eq_getElem (by omega)⟩
      have hw : 0 < w := (hc.weight 0 i₀ w hi₀ (by rw [hweights]; rfl)).2 (hfirst i₀ hi₀)
      rw [hweights, wheel_first ((point_nonpos r (not_le.1 htotal).le).trans_lt hw)] at hi
      exact hfirst i hi

/-- Drawing from an entry with peers is recorded as such. -/
theorem AtRound.drawn_mark (h : AtRound fp weights n is maxPeers s out t) {i j : Nat} (hj : is[j]? = some i)
    (hleft : t.helper.left i ≠ []) : ∀ count ∈ (mark t j).fill.drawn, 0 < count := by
  intro count hcount
  change count ∈ t.fill.drawn ++ [(t.fill.peercount[j]?).getD 0] at hcount
  rw [h.counted.peercount_get hj, Option.getD_some] at hcount
  rcases List.mem_append.1 hcount with hcount | hcount
  · exact h.drawn count hcount
  · rw [List.mem_singleton.1 hcount]
    exact List.length_pos_iff.2 hleft

theorem AtRound.drawn_filled (h : AtRound fp weights n is maxPeers s out t) {i j : Nat} {peer : Peer}
    (hsel : Selected n i (mark t j) (some peer) t₂) (hj : is[j]? = some i) :
    ∀ count ∈ (filled fp t₂ peer j).fill.drawn, 0 < count := by
  change ∀ count ∈ (t₂.fill.take fp j).drawn, 0 < count
  rw [take_drawn, hsel.1]
  exact h.drawn_mark hj (left_ne_nil_of_selected hsel)

/-- After a round the counters are right. -/
theorem AtRound.sound_filled (h : AtRound fp weights n is maxPeers s out t)
    (hexact : fp.ExactSums weights) (hsmall : (s.helper.pool is).length < 2 ^ 32) {i j : Nat} {peer : Peer}
    (hsel : Selected n i (mark t j) (some peer) t₂) (hj : is[j]? = some i) (hnodup : is.Nodup) :
    (filled fp t₂ peer j).fill.Sound := by
  have hcounted := h.counted.filled fp hsmall hsel hj hnodup
  obtain ⟨order, hd⟩ := h.dry
  obtain ⟨order', hd'⟩ := hd.filled h.counted hsmall hsel hj hnodup
  exact ⟨hcounted.totalPeercount, hd'.totalWeight hexact, h.drawn_filled hsel hj⟩

/-- The next round. -/
theorem AtRound.next (h : AtRound fp weights n is maxPeers s out t)
    (hsmall : (s.helper.pool is).length < 2 ^ 32) {i j : Nat} {peer : Peer}
    (hsel : Selected n i (mark t j) (some peer) t₂) (hj : is[j]? = some i) (hnodup : is.Nodup)
    (hopen : (filled fp t₂ peer j).outPeers.length < maxPeers ∧
      0 < (filled fp t₂ peer j).fill.totalPeercount) :
    AtRound fp weights n is maxPeers s (out ++ [peer]) (filled fp t₂ peer j) := by
  have hcounted := h.counted.filled fp hsmall hsel hj hnodup
  obtain ⟨order, hd⟩ := h.dry
  have htakes : ∀ k, (t₂.helper.left k).length ≤ (t.helper.left k).length ∧
      (t.helper.left k).length ≤ (t₂.helper.left k).length + 1 := by
    intro k
    by_cases hk : k = i
    · subst hk
      have htaken : (peer :: t₂.helper.left k).Perm (t.helper.left k) := hsel.2.taken peer rfl
      have hlen := htaken.length_eq
      rw [List.length_cons] at hlen
      omega
    · have hother : t₂.helper.left k = t.helper.left k := hsel.2.others k hk
      rw [hother]
      omega
  refine ⟨hcounted, hd.filled h.counted hsmall hsel hj hnodup, h.drawn_filled hsel hj, .inr hopen.1,
    ?_, fun k => ?_, fun k => ?_⟩
  · rw [← hcounted.totalPeercount]
    exact hopen.2
  · have hkept := h.kept k
    have hless := (htakes k).2
    change _ ≤ (t₂.helper.left k).length + _
    rw [List.length_append, List.length_singleton]
    omega
  · exact (htakes k).1.trans (h.shrinks k)

/-- Where the condition holds the last PID has peers whenever a round starts. -/
theorem AtRound.last_left (h : AtRound fp weights n is maxPeers s out t)
    (hcond : is.length = 1 ∨ ∀ i, is[is.length - 1]? = some i →
      maxPeers ≤ s.outPeers.length + (s.helper.left i).length)
    (hpos : ∀ i ∈ is, s.helper.left i ≠ []) {i : Nat} (hi : is[is.length - 1]? = some i) :
    t.helper.left i ≠ [] := by
  rcases hcond with hone | hcond
  · obtain ⟨i', rfl⟩ := List.length_eq_one_iff.1 hone
    obtain rfl := Option.some.inj hi
    have hsum := h.some_left
    rw [h.counted.peercount, List.map_singleton, List.sum_singleton] at hsum
    exact List.length_pos_iff.1 hsum
  · have hkept := h.kept i
    have hmissing := hcond i hi
    have hleft := List.length_pos_iff.2 (hpos i (List.mem_of_getElem? hi))
    refine List.length_pos_iff.1 ?_
    rcases h.below with rfl | hopen
    · rw [List.length_nil] at hkept
      omega
    · rw [h.counted.drew.outPeers, List.length_append] at hopen
      omega

end Round

/-! ## The loop -/

variable {peercount : List Nat} {maxPeers : Nat}

/-- The state in which the loop starts. -/
def opened (fp : Rounding) (s : Selecting Peer) (peercount : List Nat) (weights : List ℚ) :
    Selecting Peer :=
  { s with fill :=
    { peercount
      weights
      totalPeercount := toUnsigned peercount.sum
      totalWeight := weights.foldl fp.add 0 } }

theorem fillPeers_eq (hf : Filling n s is peercount weights) (hne : is ≠ []) (maxPeers : Nat)
    (fill : Fill) (rs : List (Fin (randMax + 1))) :
    fillPeers fp (pidList is) peercount weights maxPeers { s with fill } rs =
      Draws.loop (fun () => fillRound fp (pidList is) maxPeers) () (opened fp s peercount weights) rs := by
  have hpids : (pidList is).isEmpty = false := by
    cases is with
    | nil => exact absurd rfl hne
    | cons i is => rfl
  have hpeercount : (pidList is).length = peercount.length := by
    rw [hf.peercount_eq, pidList, List.length_map, List.length_map]
  have hweights : (pidList is).length = weights.length := by
    rw [hf.length_weights, pidList, List.length_map]
  unfold fillPeers
  rw [hpids, if_neg Bool.false_ne_true, 
    if_neg (not_or.2 ⟨not_not.2 hpeercount, not_not.2 hweights⟩)]
  rfl

theorem Filling.sum_eq (hf : Filling n s is peercount weights) :
    peercount.sum = (s.helper.pool is).length := by
  rw [hf.peercount_eq, sum_lengths]

theorem Filling.left_ne_nil (hf : Filling n s is peercount weights) {i : Nat} (hi : i ∈ is) :
    s.helper.left i ≠ [] := by
  refine List.length_pos_iff.1 (hf.peercount_pos _ ?_)
  rw [hf.peercount_eq]
  exact List.mem_map.2 ⟨i, hi, rfl⟩

/-- The first round. -/
theorem Filling.atRound (hf : Filling n s is peercount weights) (hne : is ≠ [])
    (hsmall : peercount.sum < 2 ^ 32) :
    AtRound fp weights n is maxPeers s [] (opened fp s peercount weights) where
  counted :=
    { drew := (Drew.refl hf.ready).fill _
      peercount := hf.peercount_eq
      length := hf.length_weights
      nonneg := fun w hw => (hf.weights_pos w hw).le
      weight := fun k i w hk hw => iff_of_true (hf.weights_pos w (List.mem_of_getElem? hw))
        (hf.left_ne_nil (List.mem_of_getElem? hk))
      totalPeercount := toUnsigned_natCast hsmall }
  dry :=
    ⟨[], List.nodup_nil, nofun, fun j i hi => iff_of_false List.not_mem_nil
      (hf.left_ne_nil (List.mem_of_getElem? hi)), rfl, rfl⟩
  drawn := nofun
  below := .inl rfl
  some_left := by
    obtain ⟨i, hi⟩ := List.exists_mem_of_ne_nil is hne
    have hmem : (s.helper.left i).length ∈ peercount := by
      rw [hf.peercount_eq]
      exact List.mem_map.2 ⟨i, hi, rfl⟩
    exact (hf.peercount_pos _ hmem).trans_le
      (List.single_le_sum (fun _ _ => Nat.zero_le _) _ hmem)
  kept i := Nat.le_add_right _ _
  shrinks i := le_refl _

/-- The condition, in terms of the last PID. -/
theorem Filling.suffices_iff (hf : Filling n s is peercount weights) (hne : is ≠ []) :
    Suffices s.outPeers.length peercount maxPeers ↔ peercount.sum < 2 ^ 32 ∧
      (is.length = 1 ∨ ∀ i, is[is.length - 1]? = some i →
        maxPeers ≤ s.outPeers.length + (s.helper.left i).length) := by
  have hlen : peercount.length = is.length := by rw [hf.peercount_eq, List.length_map]
  have hnil : peercount ≠ [] := by
    intro hnil
    rw [hnil] at hlen
    exact hne (List.length_eq_zero_iff.1 hlen.symm)
  have hlt : is.length - 1 < is.length := by
    have := List.length_pos_iff.2 hne
    omega
  have hlast : peercount.getLast? = some (s.helper.left is[is.length - 1]).length := by
    rw [List.getLast?_eq_getElem?, hlen, hf.peercount_eq, List.getElem?_map,
      List.getElem?_eq_getElem hlt, Option.map_some]
  rw [Suffices, or_iff_right hnil, hlen, hlast, Option.getD_some, List.getElem?_eq_getElem hlt]
  simp

/-- Some entries that have run dry have lost no more than all entries together. -/
theorem sum_order_le {old new order : List Nat} (hlen : new.length = old.length)
    (hle : ∀ j : Nat, (new[j]?).getD 0 ≤ (old[j]?).getD 0) (hzero : ∀ j ∈ order, (new[j]?).getD 0 = 0)
    (hnodup : order.Nodup) (hvalid : ∀ j ∈ order, j < old.length) :
    (order.map fun j => (old[j]?).getD 0).sum + new.sum ≤ old.sum := by
  have hsum : ∀ l : List Nat, l.sum = ∑ j ∈ Finset.range l.length, (l[j]?).getD 0 := by
    intro l
    rw [Finset.sum_range, ← Fin.sum_univ_getElem]
    exact Finset.sum_congr rfl fun j _ => by rw [List.getElem?_eq_getElem j.isLt, Option.getD_some]
  have hsub : order.toFinset ⊆ Finset.range old.length := fun j hj =>
    Finset.mem_range.2 (hvalid j (List.mem_toFinset.1 hj))
  have hnone : ∑ j ∈ order.toFinset, (new[j]?).getD 0 = 0 :=
    Finset.sum_eq_zero fun j hj => hzero j (List.mem_toFinset.1 hj)
  have hrest := Finset.sum_sdiff (f := fun j => (new[j]?).getD 0) hsub
  have hall := Finset.sum_sdiff (f := fun j => (old[j]?).getD 0) hsub
  have hother : ∑ j ∈ Finset.range old.length \ order.toFinset, (new[j]?).getD 0 ≤
      ∑ j ∈ Finset.range old.length \ order.toFinset, (old[j]?).getD 0 :=
    Finset.sum_le_sum fun j _ => hle j
  rw [hsum old, hsum new, hlen, ← List.sum_toFinset _ hnodup]
  omega

/-- Where rounding does no harm the first PID has peers or the total weight is not below zero. -/
theorem AtRound.total_or_first {out : List Peer} {t : Selecting Peer}
    (h : AtRound fp weights n is maxPeers s out t) (hf : Filling n s is peercount weights)
    (hholds : WeightHolds fp s.outPeers.length peercount weights maxPeers) :
    0 ≤ t.fill.totalWeight ∨ ∀ i, is[0]? = some i → t.helper.left i ≠ [] := by
  obtain ⟨order, hd⟩ := h.dry
  by_cases hfirst : 0 ∈ order
  · left
    have hlen : peercount.length = is.length := by rw [hf.peercount_eq, List.length_map]
    have hlost : (order.map fun j => (peercount[j]?).getD 0).sum + t.fill.peercount.sum ≤
        peercount.sum := by
      refine sum_order_le ?_ (fun j => ?_) (fun j hj => ?_) hd.nodup fun j hj => ?_
      · rw [h.counted.peercount, hlen, List.length_map]
      · rw [h.counted.peercount, hf.peercount_eq, List.getElem?_map, List.getElem?_map]
        cases is[j]? with
        | none => exact le_refl _
        | some i => exact h.shrinks i
      · have hi := List.getElem?_eq_getElem (hd.valid j hj)
        rw [h.counted.peercount_get hi, (hd.mem_iff j _ hi).1 hj]
        rfl
      · rw [hlen]
        exact hd.valid j hj
    have hsum := h.counted.sum
    have hleft := h.some_left
    rw [← hf.sum_eq] at hsum
    rw [hd.total_eq]
    refine hholds order hd.nodup hfirst (fun j hj => hlen ▸ hd.valid j hj) (by omega) ?_
    rcases h.below with rfl | hopen
    · have hlt := hd.valid 0 hfirst
      have hi := List.getElem?_eq_getElem hlt
      have hkept := h.kept is[0]
      rw [(hd.mem_iff 0 _ hi).1 hfirst, List.length_nil] at hkept
      exact absurd (List.length_eq_zero_iff.1 (Nat.le_zero.1 hkept))
        (hf.left_ne_nil (List.mem_of_getElem? hi))
    · rw [h.counted.drew.outPeers, List.length_append] at hopen
      omega
  · exact .inr fun i hi hnil => hfirst ((hd.mem_iff 0 i hi).2 hnil)

/-- If the last PID suffices and rounding does no harm `fillPeers` does not throw, and never draws from an
exhausted PID. -/
theorem fillPeers_safe (hf : Filling n s is peercount weights)
    (hcond : Suffices s.outPeers.length peercount maxPeers)
    (hholds : WeightHolds fp s.outPeers.length peercount weights maxPeers)
    (rs : List (Fin (randMax + 1))) :
    (fillPeers fp (pidList is) peercount weights maxPeers { s with fill := {} } rs).Holds
      (fun _ t => fp.ExactSums weights → t.fill.Sound) (fun _ => False)
      (fun t => fp.ExactSums weights → t.fill.Sound) := by
  rcases eq_or_ne is [] with rfl | hne
  · exact fun _ => ⟨rfl, rfl, nofun⟩
  rw [fillPeers_eq hf hne]
  obtain ⟨hsmall, hlast⟩ := (hf.suffices_iff hne).1 hcond
  have hpool : (s.helper.pool is).length < 2 ^ 32 := hf.sum_eq ▸ hsmall
  refine Draws.triple_loop (J := fun _ t => ∃ out, AtRound fp weights n is maxPeers s out t) ?_
    (fun _ _ ⟨_, h⟩ => h.sound) () _ rs ⟨[], hf.atRound hne hsmall⟩
  rintro _ t rs ⟨out, h⟩
  cases rs with
  | nil => exact h.sound
  | cons r rs =>
    obtain ⟨i, hi, hround⟩ :=
      fillRound_spec h.counted.drew.ready hf.valid hne h.counted.length maxPeers r rs
    have hleft := h.counted.wheel_left (h.total_or_first hf hholds)
      (fun _ => h.last_left hlast fun _ => hf.left_ne_nil) r hi
    generalize wheel fp (point fp r t.fill.totalWeight) t.fill.weights = j at hi hround
    refine hround.imp ?_ ?_ ?_
    · rintro x _ ⟨peer, t₂, hsel, rfl, hx⟩
      cases x with
      | inl u => exact ⟨_, h.next hpool hsel hi hf.nodup (hx.1 rfl)⟩
      | inr u => exact fun hexact => h.sound_filled hexact hpool hsel hi hf.nodup
    · intro t' hsel
      exact hleft (hsel.2.empty rfl).1
    · intro t' hw hexact
      have hfill : t'.fill = (mark t j).fill := by rw [hw.frame]
      have hsound := h.sound hexact
      rw [hfill]
      exact ⟨hsound.totalPeercount, hsound.totalWeight, h.drawn_mark hi hleft⟩

/-- If no sum of weights is rounded it is enough that the last PID suffices. -/
theorem fillPeers_sound (hf : Filling n s is peercount weights) (hexact : fp.ExactSums weights)
    (hcond : Suffices s.outPeers.length peercount maxPeers) (rs : List (Fin (randMax + 1))) :
    (fillPeers fp (pidList is) peercount weights maxPeers { s with fill := {} } rs).Holds
      (fun _ t => t.fill.Sound) (fun _ => False) (fun t => t.fill.Sound) :=
  (fillPeers_safe hf hcond (weightHolds_of_exact hexact (fun w hw => (hf.weights_pos w hw).le) _ _ _)
    rs).imp (fun _ _ h => h hexact) (fun _ => id) fun _ h => h hexact

/-! ## The last entry -/

/-- At the start of a round there are this many peers left of the last PID, and another PID has some. -/
def Draining (fp : Rounding) (weights : List ℚ) (n : Nat) (is : List Nat) (maxPeers : Nat)
    (s : Selecting Peer) (last other : Nat) (t : Selecting Peer) : Prop :=
  ∃ out, AtRound fp weights n is maxPeers s out t ∧
    out.length + (t.helper.left last).length = (s.helper.left last).length ∧ t.helper.left other ≠ []

/-- The greatest result of `rand` falls on the last entry, if no sum is rounded. -/
theorem AtRound.wheel_last {out : List Peer} {t : Selecting Peer}
    (h : AtRound fp weights n is maxPeers s out t) (hexact : fp.ExactSums weights) (hrand : 0 < randMax) :
    wheel fp (point fp (Fin.last randMax) t.fill.totalWeight) t.fill.weights = is.length - 1 := by
  obtain ⟨order, hd⟩ := h.dry
  have hne : (randMax : ℚ) ≠ 0 := by exact_mod_cast hrand.ne'
  have hone : fp.round 1 = 1 := by
    have hnat := fp.round_natCast (n := 1) (by norm_num)
    rwa [Nat.cast_one] at hnat
  have hdrop := round_drop_dryWeights hexact order
  rw [← hd.weights_eq] at hdrop
  have hsum := hdrop 0
  rw [List.drop_zero] at hsum
  rw [point, Fin.val_last, div_self hne, hone, Rounding.mul, one_mul, hd.totalWeight hexact, hsum,
    wheel_sum h.counted.nonneg hdrop, h.counted.length]

/-- A round can draw from the last PID as long as it has peers. -/
theorem may_fillRound_last (hf : Filling n s is peercount weights) (hexact : fp.ExactSums weights)
    (hrand : 0 < randMax) (hview : Reachable randMax s.helper.ispPeers)
    (hsmall : peercount.sum < 2 ^ 32) {last other : Nat}
    (hlast : is[is.length - 1]? = some last) (hother : other ∈ is) (hne : other ≠ last)
    (hmissing : s.outPeers.length + (s.helper.left last).length < maxPeers) (left : Nat) :
    Draws.May (fun t => Draining fp weights n is maxPeers s last other t ∧
        (t.helper.left last).length = left + 1)
      (fillRound fp (pidList is) maxPeers : Selector randMax Peer (Unit ⊕ Unit))
      (fun x t => ∃ u : Unit, x = .inl u ∧ Draining fp weights n is maxPeers s last other t ∧
        (t.helper.left last).length < left + 1) := by
  rintro t ⟨⟨out, h, hout, hleft⟩, hcount⟩
  have hpool : (s.helper.pool is).length < 2 ^ 32 := hf.sum_eq ▸ hsmall
  have hlastMem := List.mem_of_getElem? hlast
  have hview' : Reachable randMax (mark t (is.length - 1)).helper.ispPeers := by
    change Reachable randMax t.helper.ispPeers
    rw [h.counted.drew.ispPeers]
    exact hview
  obtain ⟨peer, hpeer⟩ := List.exists_mem_of_length_pos (Nat.lt_of_lt_of_eq (Nat.succ_pos left) hcount.symm)
  obtain ⟨rs, t₂, hsel, hrun⟩ := may_selectPeer (s := mark t (is.length - 1))
    h.counted.drew.ready (hf.valid last hlastMem) hview' hpeer
  have htaken : (peer :: t₂.helper.left last).Perm (t.helper.left last) := hsel.2.taken peer rfl
  have hlen := htaken.length_eq
  rw [List.length_cons] at hlen
  have hotherLeft : t₂.helper.left other ≠ [] := by
    have hsame : t₂.helper.left other = t.helper.left other := hsel.2.others other hne
    rw [hsame]
    exact hleft
  have hcounted := h.counted.filled fp hpool hsel hlast hf.nodup
  -- the limit has not been reached, and the other PID has peers
  have hopen : (filled fp t₂ peer (is.length - 1)).outPeers.length < maxPeers ∧
      0 < (filled fp t₂ peer (is.length - 1)).fill.totalPeercount := by
    constructor
    · rw [hcounted.drew.outPeers, List.length_append, List.length_append, List.length_singleton]
      omega
    · rw [hcounted.totalPeercount, hcounted.peercount]
      refine (List.length_pos_iff.2 hotherLeft).trans_le ?_
      exact List.single_le_sum (fun _ _ => Nat.zero_le _) _ (List.mem_map.2 ⟨other, hother, rfl⟩)
  refine ⟨Fin.last randMax :: rs, .inl (), filled fp t₂ peer (is.length - 1),
    ⟨(), rfl, ⟨out ++ [peer], h.next hpool hsel hlast hf.nodup hopen, ?_, hotherLeft⟩, ?_⟩,
    fun rest => ?_⟩
  · change _ + (t₂.helper.left last).length = _
    rw [List.length_append, List.length_singleton]
    omega
  · change (t₂.helper.left last).length < _
    omega
  · rw [List.cons_append, fillRound_run maxPeers (h.wheel_last hexact hrand) hlast (hrun rest),
      if_pos hopen]

/-- A round can draw from the last PID when it has none. -/
theorem mayStop_fillRound_last (hf : Filling n s is peercount weights) (hexact : fp.ExactSums weights)
    (hrand : 0 < randMax) {last other : Nat} (hlast : is[is.length - 1]? = some last) :
    Draws.MayStop (fun t => Draining fp weights n is maxPeers s last other t ∧
        (t.helper.left last).length = 0)
      (fillRound fp (pidList is) maxPeers : Selector randMax Peer (Unit ⊕ Unit))
      (fun _ => True) (fun t => 0 ∈ t.fill.drawn) := by
  rintro t ⟨⟨out, h, hout, -⟩, hleft⟩
  have hne : is ≠ [] := List.ne_nil_of_mem (List.mem_of_getElem? hlast)
  obtain ⟨i, hi, hround⟩ := fillRound_spec h.counted.drew.ready hf.valid hne h.counted.length
    maxPeers (Fin.last randMax) []
  rw [h.wheel_last hexact hrand] at hi hround
  obtain rfl := Option.some.inj (hlast.symm.trans hi)
  refine ⟨[Fin.last randMax], Drawn.Holds.stops (hround.imp (fun _ _ => id) (fun _ _ => trivial)
    fun t' hw => ?_) ?_⟩
  · have hfill : t'.fill = (mark t (is.length - 1)).fill := by rw [hw.frame]
    rw [hfill]
    refine List.mem_append_right _ (List.mem_singleton.2 ?_)
    rw [h.counted.peercount_get hi, Option.getD_some, hleft]
  · rintro _ _ ⟨peer, t₂, hsel, -, -⟩
    exact left_ne_nil_of_selected hsel (List.length_eq_zero_iff.1 hleft)

/-- Otherwise the last PID runs dry. -/
theorem fillPeers_unsound (hf : Filling n s is peercount weights) (hexact : fp.ExactSums weights)
    (hrand : 0 < randMax) (hview : Reachable randMax s.helper.ispPeers)
    (hcond : ¬ Suffices s.outPeers.length peercount maxPeers) :
    ∃ rs : List (Fin (randMax + 1)),
      ¬ (fillPeers fp (pidList is) peercount weights maxPeers { s with fill := {} } rs).Holds
        (fun _ t => t.fill.Sound) (fun _ => False) (fun t => t.fill.Sound) := by
  have hne : is ≠ [] := by
    rintro rfl
    exact hcond (.inl hf.peercount_eq)
  rw [hf.suffices_iff hne] at hcond
  by_cases hsmall : peercount.sum < 2 ^ 32
  · have hlong : is.length ≠ 1 := fun hone => hcond ⟨hsmall, .inl hone⟩
    have hpos := List.length_pos_iff.2 hne
    have hlt : is.length - 1 < is.length := by omega
    have hlast := List.getElem?_eq_getElem hlt
    have hmissing : s.outPeers.length + (s.helper.left is[is.length - 1]).length < maxPeers := by
      by_contra hle
      refine hcond ⟨hsmall, .inr fun i hi => ?_⟩
      obtain rfl := Option.some.inj (hlast.symm.trans hi)
      omega
    have hother : is[0] ∈ is := List.getElem_mem hpos
    have hdistinct : is[0] ≠ is[is.length - 1] := by
      intro heq
      have := (hf.nodup.getElem_inj_iff).1 heq
      omega
    have hstop : Draws.MayStop (Draining fp weights n is maxPeers s is[is.length - 1] is[0])
        (Draws.loop (fun () =>
          (fillRound fp (pidList is) maxPeers : Selector randMax Peer (Unit ⊕ Unit))) ())
        (fun _ => True) (fun t => 0 ∈ t.fill.drawn) := by
      refine Draws.mayStop_loop (advances_fillRound _ _ _)
        (J := fun _ => Draining fp weights n is maxPeers s is[is.length - 1] is[0])
        (fun _ t => (t.helper.left is[is.length - 1]).length) (fun _ left => ?_) ()
      cases left with
      | zero => exact .inl (mayStop_fillRound_last hf hexact hrand hlast)
      | succ left =>
        exact .inr (may_fillRound_last hf hexact hrand hview hsmall hlast hother hdistinct hmissing left)
    obtain ⟨rs, hrs⟩ := hstop (opened fp s peercount weights)
      ⟨[], hf.atRound hne hsmall, Nat.zero_add _, hf.left_ne_nil hother⟩
    refine ⟨rs, ?_⟩
    rw [fillPeers_eq hf hne]
    exact hrs.not_holds (fun _ _ => id) fun t hzero hsound => absurd (hsound.drawn 0 hzero) (lt_irrefl 0)
  · -- the counter wraps around before the first round
    refine ⟨[], ?_⟩
    rw [fillPeers_eq hf hne]
    intro hsound
    have htotal : toUnsigned peercount.sum = peercount.sum := hsound.totalPeercount
    have hlt : toUnsigned (peercount.sum : Int) < 2 ^ 32 := by
      unfold toUnsigned
      omega
    omega

/-- `fillPeers` never draws from an exhausted PID exactly if the last PID suffices. -/
theorem fillPeers_sound_iff (hf : Filling n s is peercount weights) :
    (Suffices s.outPeers.length peercount maxPeers → ∀ rs : List (Fin (randMax + 1)),
      (fillPeers .exact (pidList is) peercount weights maxPeers { s with fill := {} } rs).Holds
        (fun _ t => t.fill.Sound) (fun _ => False) (fun t => t.fill.Sound)) ∧
    (0 < randMax → Reachable randMax s.helper.ispPeers →
      (∀ rs : List (Fin (randMax + 1)),
        (fillPeers .exact (pidList is) peercount weights maxPeers { s with fill := {} } rs).Holds
          (fun _ t => t.fill.Sound) (fun _ => False) (fun t => t.fill.Sound)) →
      Suffices s.outPeers.length peercount maxPeers) := by
  refine ⟨fillPeers_sound hf (Rounding.exactSums_exact _), fun hrand hview hsound => ?_⟩
  by_contra hcond
  obtain ⟨rs, hrs⟩ := fillPeers_unsound hf (Rounding.exactSums_exact _) hrand hview hcond
  exact hrs (hsound rs)

/-! ## A small distribution -/

/-- Two PIDs, with the peers 0 and 2 and with the peer 1. -/
def twoBuckets : PerISPPeerDistribution Nat :=
  ({} : PerISPPeerDistribution Nat).addAll 2 (fun p => (p : Int) % 2) [(0, {}), (1, {}), (2, {})]

theorem buckets_twoBuckets : twoBuckets.Buckets :=
  PerISPPeerDistribution.buckets_empty.addAll _ _ _

/-- A selection that has not selected anything. -/
def untouched : Selecting Nat := { outPeers := [], helper := .create twoBuckets 2 4 }

theorem filling_untouched : Filling 2 untouched [0, 1] [2, 1] [1 / 2, 1 / 2] where
  ready := PIDPeerSelectionHelper.ready_create buckets_twoBuckets 2 4
  valid := by decide
  nodup := by decide
  peercount_eq := by decide +kernel
  peercount_pos := by decide
  length_weights := rfl
  weights_pos := by decide +kernel

theorem fillPeers_sound_untouched :
    ((fillPeers .exact (pidList [0, 1]) [2, 1] [1 / 2, 1 / 2] 1 : Selector 32767 Nat Unit)
      { untouched with fill := {} } [32767, 0, 5]).Holds
        (fun _ t => t.fill.Sound) (fun _ => False) (fun t => t.fill.Sound) :=
  (fillPeers_sound_iff filling_untouched).1 (.inr ⟨by decide, .inr (by decide)⟩) _

/-- The second round falls on the last entry again. -/
theorem fillPeers_draws_exhausted : Filling 2 untouched [0, 1] [2, 1] [1 / 2, 1 / 2] ∧
    ¬ ((fillPeers .exact (pidList [0, 1]) [2, 1] [1 / 2, 1 / 2] 3 : Selector 32767 Nat Unit)
      { untouched with fill := {} } [32767, 0, 32767]).Holds
        (fun _ t => t.fill.Sound) (fun _ => False) (fun t => t.fill.Sound) :=
  ⟨filling_untouched, Drawn.not_holds_of_hasThrown (by decide +kernel)⟩

end Selector

end Alto.Selection
