import Mathlib
import Alto.Verify.SelectionStages

/-!
# Filling by weights

`fillPeers` draws from the entries of its lists and appends a peer in each round before it looks at the
limit. The roulette wheel stops at an entry with a positive weight or at the last entry, whether that is
exhausted or not; for a random number below zero it stops at the first one.
-/

namespace Alto.Selection

open Common Lib App Guidance

variable {randMax : Nat} {Peer : Type} [LinearOrder Peer]

namespace Selector

variable {fp : Rounding} {n : Nat} {is : List Nat} {s s' : Selecting Peer} {out skipped : List Peer}

/-! ## The roulette wheel -/

theorem wheel_lt {r : ℚ} {weights : List ℚ} (h : weights ≠ []) :
    wheel fp r weights < weights.length := by
  induction weights generalizing r with
  | nil => exact absurd rfl h
  | cons w weights ih =>
    cases weights with
    | nil => exact Nat.zero_lt_one
    | cons w' weights =>
      rw [wheel]
      split
      · rw [List.length_cons]
        exact Nat.succ_lt_succ (ih (List.cons_ne_nil _ _))
      · exact Nat.succ_pos _

/-- The wheel stops at an entry with a positive weight or at the last one. -/
theorem wheel_cases {r : ℚ} {weights : List ℚ} (hr : 0 ≤ r) :
    (∃ w, weights[wheel fp r weights]? = some w ∧ 0 < w) ∨
      wheel fp r weights = weights.length - 1 := by
  induction weights generalizing r with
  | nil => exact .inr rfl
  | cons w weights ih =>
    cases weights with
    | nil => exact .inr rfl
    | cons w' weights =>
      rw [wheel]
      split
      · next hle =>
        have hrest : 0 ≤ fp.sub r w := fp.round_nonneg (sub_nonneg.2 hle)
        refine (ih hrest).imp (fun hfound => ?_) fun hlast => ?_
        · rwa [List.getElem?_cons_succ]
        · rw [hlast]
          rfl
      · next hgt => exact .inl ⟨w, rfl, hr.trans_lt (not_le.1 hgt)⟩

/-- It stops at the first entry that is greater than the random number. -/
theorem wheel_first {r w : ℚ} {weights : List ℚ} (hlt : r < w) : wheel fp r (w :: weights) = 0 := by
  cases weights with
  | nil => rfl
  | cons w' weights => rw [wheel, if_neg (not_le.2 hlt)]

/-- At the end of the range it stops at the last entry, if no sum is rounded. -/
theorem wheel_sum {weights : List ℚ} (hpos : ∀ w ∈ weights, 0 ≤ w)
    (hexact : ∀ k, fp.round (weights.drop k).sum = (weights.drop k).sum) :
    wheel fp weights.sum weights = weights.length - 1 := by
  induction weights with
  | nil => rfl
  | cons w weights ih =>
    cases weights with
    | nil => rfl
    | cons w' weights =>
      have hrest : 0 ≤ (w' :: weights).sum :=
        List.sum_nonneg fun x hx => hpos x (List.mem_cons_of_mem _ hx)
      have ih := ih (fun x hx => hpos x (List.mem_cons_of_mem _ hx)) fun k => hexact (k + 1)
      have hround : fp.round (w' :: weights).sum = (w' :: weights).sum := hexact 1
      rw [wheel, List.sum_cons, if_pos (le_add_of_nonneg_right hrest), Rounding.sub,
        add_sub_cancel_left, hround, ih]
      rfl

/-! ## A round -/

/-- The record of the entry that is drawn from. -/
def mark (t : Selecting Peer) (j : Nat) : Selecting Peer :=
  { t with fill := { t.fill with drawn := t.fill.drawn ++ [(t.fill.peercount[j]?).getD 0] } }

/-- A peer that has been drawn from an entry. -/
def filled (fp : Rounding) (t : Selecting Peer) (peer : Peer) (j : Nat) : Selecting Peer :=
  { t with outPeers := t.outPeers ++ [peer], fill := t.fill.take fp j }

/-- What a round does: it stops the wheel at an entry and draws from its PID. Without a peer it
throws. -/
theorem fillRound_spec {t : Selecting Peer} (hr : t.helper.Ready n) (his : ∀ i ∈ is, i < n)
    (hne : is ≠ []) (hweights : t.fill.weights.length = is.length) (maxPeers : Nat)
    (r : Fin (randMax + 1)) (rs : List (Fin (randMax + 1))) :
    ∃ i, is[wheel fp (point fp r t.fill.totalWeight) t.fill.weights]? = some i ∧
      (fillRound fp (pidList is) maxPeers t (r :: rs)).Holds
        (fun x t' => ∃ peer t₂,
          Selected n i (mark t (wheel fp (point fp r t.fill.totalWeight) t.fill.weights))
            (some peer) t₂ ∧
          t' = filled fp t₂ peer (wheel fp (point fp r t.fill.totalWeight) t.fill.weights) ∧
          (x = .inl () ↔ t'.outPeers.length < maxPeers ∧ 0 < t'.fill.totalPeercount))
        (fun t' => Selected n i
          (mark t (wheel fp (point fp r t.fill.totalWeight) t.fill.weights)) none t')
        (fun t' => Waits n
          (mark t (wheel fp (point fp r t.fill.totalWeight) t.fill.weights)) t') := by
  have hnil : t.fill.weights ≠ [] := by
    intro hnil
    rw [hnil] at hweights
    exact hne (List.length_eq_zero_iff.1 hweights.symm)
  unfold fillRound
  simp only [Draws.bind_apply, Draws.draw, Draws.get, Draws.modify, Drawn.andThen]
  generalize hj : wheel fp (point fp r t.fill.totalWeight) t.fill.weights = j
  have hlt : j < is.length := by
    rw [← hj, ← hweights]
    exact wheel_lt hnil
  have hi := List.getElem?_eq_getElem hlt
  refine ⟨is[j], hi, ?_⟩
  rw [pidList, List.getElem?_map, hi, Option.map_some]
  refine Draws.holds_bind (selectPeer_spec (s := mark t j) hr (his _ (List.getElem_mem hlt)) rs |>.imp
    (fun _ _ => id) (fun _ => False.elim) (fun _ => id)) ?_
  intro result t₂ rest hsel
  cases result with
  | none => exact hsel
  | some peer =>
    simp only [push, Draws.bind_apply, Draws.get, Draws.modify, Drawn.andThen]
    split
    · next hcond => exact ⟨peer, t₂, hsel, rfl, iff_of_true rfl hcond⟩
    · next hcond => exact ⟨peer, t₂, hsel, rfl, iff_of_false (by simp) hcond⟩

/-- A round in which a peer is drawn. -/
theorem fillRound_run {t t₂ : Selecting Peer} {i j : Nat} {peer : Peer} (maxPeers : Nat)
    {r : Fin (randMax + 1)} {rs rest : List (Fin (randMax + 1))}
    (hwheel : wheel fp (point fp r t.fill.totalWeight) t.fill.weights = j)
    (hj : is[j]? = some i) (hrun : selectPeer i (mark t j) rs = .returned (some peer) t₂ rest) :
    fillRound fp (pidList is) maxPeers t (r :: rs) = .returned
      (if (filled fp t₂ peer j).outPeers.length < maxPeers ∧
        0 < (filled fp t₂ peer j).fill.totalPeercount then .inl () else .inr ())
      (filled fp t₂ peer j) rest := by
  unfold fillRound
  simp only [Draws.bind_apply, Draws.draw, Draws.get, Draws.modify, Drawn.andThen, hwheel]
  rw [pidList, List.getElem?_map, hj, Option.map_some]
  simp only [Draws.bind_apply]
  rw [show selectPeer (i : Int) { t with fill :=
    { t.fill with drawn := t.fill.drawn ++ [(t.fill.peercount[j]?).getD 0] } } rs = _ from hrun]
  simp only [push, Draws.bind_apply, Draws.get, Draws.modify, Drawn.andThen]
  split
  · next hcond =>
    have hcond' : (filled fp t₂ peer j).outPeers.length < maxPeers ∧
        0 < (filled fp t₂ peer j).fill.totalPeercount := hcond
    rw [if_pos hcond']
    rfl
  · next hcond =>
    have hcond' : ¬ ((filled fp t₂ peer j).outPeers.length < maxPeers ∧
        0 < (filled fp t₂ peer j).fill.totalPeercount) := hcond
    rw [if_neg hcond']
    rfl

/-- A round draws. -/
theorem advances_fillRound (fp : Rounding) (pids : List Int) (maxPeers : Nat) :
    Draws.Advances fun () =>
      (fillRound fp pids maxPeers : Selector randMax Peer (Unit ⊕ Unit)) := by
  intro _
  unfold fillRound
  refine (Draws.eats_draw fun _ => True).bind (F := fun _ _ => False) (fun r => ?_)
    fun _ _ _ => .inl trivial
  refine Draws.eats_get.bind (F := fun _ _ => False) (fun t => ?_) fun _ _ => False.elim
  refine (Draws.eats_modify _).bind (F := fun _ _ => False) (fun _ => ?_) fun _ _ => False.elim
  split
  · exact Draws.eats_undefined _
  · refine (eats_selectPeer _).bind (F := fun _ _ => False) (fun result => ?_)
      fun _ _ => False.elim
    cases result with
    | none => exact Draws.eats_throw _
    | some peer =>
      refine (Draws.eats_modify _).bind (F := fun _ _ => False) (fun _ => ?_) fun _ _ => False.elim
      refine (Draws.eats_modify _).bind (F := fun _ _ => False) (fun _ => ?_) fun _ _ => False.elim
      refine Draws.eats_get.bind (F := fun _ _ => False) (fun t => ?_) fun _ _ => False.elim
      exact .ite (fun _ => Draws.eats_pure id) fun _ => Draws.eats_pure id

/-! ## What the stage takes -/

theorem Drew.fill (hd : Drew n is s out skipped s') (fill : Fill) :
    Drew n is s out skipped { s' with fill } :=
  ⟨hd.outPeers, hd.peersLocks, hd.viewsLocks, hd.quotas, hd.ready, hd.ispPeers, hd.totalPeers,
    hd.others, hd.perm⟩

/-- A round that has drawn a peer. -/
theorem Drew.filled (fp : Rounding) {t t₂ : Selecting Peer} {i j : Nat} {peer : Peer}
    (hd : Drew n is s out [] t)
    (hsel : Selected n i (mark t j) (some peer) t₂) (hi : i ∈ is) (hnodup : is.Nodup) :
    Drew n is s (out ++ [peer]) [] (filled fp t₂ peer j) :=
  ((hd.fill _).push hsel hi hnodup).fill _

theorem take_peercount (fp : Rounding) (fill : Fill) (j : Nat) :
    (fill.take fp j).peercount = fill.peercount.modify j fun n => toUnsigned ((n : Int) - 1) := by
  unfold Fill.take
  dsimp only
  split <;> rfl

theorem take_totalPeercount (fp : Rounding) (fill : Fill) (j : Nat) :
    (fill.take fp j).totalPeercount = toUnsigned ((fill.totalPeercount : Int) - 1) := by
  unfold Fill.take
  dsimp only
  split <;> rfl

theorem take_drawn (fp : Rounding) (fill : Fill) (j : Nat) : (fill.take fp j).drawn = fill.drawn := by
  unfold Fill.take
  dsimp only
  split <;> rfl

/-- The weight of an entry that has become empty is taken out. -/
theorem take_weights (fp : Rounding) (fill : Fill) (j : Nat) :
    (fill.take fp j).weights =
      if ((fill.take fp j).peercount[j]?).getD 0 = 0 then fill.weights.set j 0 else fill.weights := by
  rw [take_peercount]
  unfold Fill.take
  dsimp only
  split
  · next hzero => rw [if_pos (Nat.le_zero.1 hzero)]
  · next hpos => rw [if_neg fun hzero => hpos (Nat.le_zero.2 hzero)]

theorem take_totalWeight (fp : Rounding) (fill : Fill) (j : Nat) :
    (fill.take fp j).totalWeight =
      if ((fill.take fp j).peercount[j]?).getD 0 = 0 then
        fp.sub fill.totalWeight ((fill.weights[j]?).getD 0)
      else fill.totalWeight := by
  rw [take_peercount]
  unfold Fill.take
  dsimp only
  split
  · next hzero => rw [if_pos (Nat.le_zero.1 hzero)]
  · next hpos => rw [if_neg fun hzero => hpos (Nat.le_zero.2 hzero)]

theorem length_weights_take (fp : Rounding) (fill : Fill) (j : Nat) :
    (fill.take fp j).weights.length = fill.weights.length := by
  rw [take_weights]
  split
  · exact List.length_set
  · rfl

/-- The rounds of `fillPeers`: one at least, and then up to the limit or up to the number of peers. -/
def fillCount (size maxPeers total : Nat) : Nat :=
  max 1 (min (maxPeers - size) (if total = 0 then 2 ^ 32 else total))

/-- A further round is one of them, and the loop ends with the last one. -/
theorem fillCount_succ {size maxPeers total k : Nat} (htotal : total < 2 ^ 32)
    (hk : k < fillCount size maxPeers total) :
    (size + (k + 1) < maxPeers ∧ 0 < toUnsigned ((total : Int) - (k + 1 : Nat)) →
        k + 1 < fillCount size maxPeers total) ∧
      (¬ (size + (k + 1) < maxPeers ∧ 0 < toUnsigned ((total : Int) - (k + 1 : Nat))) →
        k + 1 = fillCount size maxPeers total) := by
  unfold fillCount at hk ⊢
  unfold toUnsigned
  split at hk <;> split <;> omega

theorem toUnsigned_sub_one (n : Int) :
    toUnsigned ((toUnsigned n : Int) - 1) = toUnsigned (n - 1) := by
  unfold toUnsigned
  omega

/-- The stage appends as many peers as it has rounds, if there are PIDs. -/
def fillSize (is : List Nat) (size maxPeers total : Nat) : Nat :=
  if is = [] then 0 else fillCount size maxPeers total

theorem fillPeers_spec (hr : s.helper.Ready n) (his : ∀ i ∈ is, i < n) (hnodup : is.Nodup)
    {peercount : List Nat} {weights : List ℚ} (hpeercount : peercount.length = is.length)
    (hweights : weights.length = is.length) (maxPeers : Nat) (rs : List (Fin (randMax + 1))) :
    (fillPeers fp (pidList is) peercount weights maxPeers s rs).Holds
      (fun _ t => ∃ out, Drew n is s out [] t ∧
        out.length = fillSize is s.outPeers.length maxPeers (toUnsigned peercount.sum))
      (fun t => ∃ out, Drew n is s out [] t ∧
        out.length < fillSize is s.outPeers.length maxPeers (toUnsigned peercount.sum))
      (fun t => ∃ out, Drew n is s out [] t ∧
        out.length < fillSize is s.outPeers.length maxPeers (toUnsigned peercount.sum)) := by
  unfold fillPeers
  split
  · next hnil =>
    have hnil : is = [] := by
      cases is with
      | nil => rfl
      | cons i is => cases hnil
    exact ⟨[], .refl hr, by rw [fillSize, if_pos hnil]; rfl⟩
  next hpids =>
  have hne : is ≠ [] := by
    rintro rfl
    exact hpids rfl
  split
  · next hlen =>
    rw [pidList, List.length_map, hpeercount, hweights] at hlen
    simp at hlen
  simp only [Draws.bind_apply, Draws.modify_apply, Drawn.returned_andThen]
  rw [fillSize, if_neg hne]
  generalize htotal : toUnsigned peercount.sum = total
  have hsmall : total < 2 ^ 32 := by
    rw [← htotal]
    unfold toUnsigned
    omega
  refine Draws.triple_loop (J := fun _ t => ∃ out, (Drew n is s out [] t ∧
    out.length < fillCount s.outPeers.length maxPeers total) ∧ t.fill.weights.length = is.length ∧
    t.fill.totalPeercount = toUnsigned ((total : Int) - (out.length : Nat))) ?_
    (fun _ _ h => h.imp fun _ h => h.1) () _ rs
    ⟨[], ⟨(Drew.refl hr).fill _, by unfold fillCount; simp⟩, hweights, ?_⟩
  · rintro _ t rs ⟨out, ⟨hd, hlt⟩, hweights, hcount⟩
    cases rs with
    | nil => exact ⟨out, hd, hlt⟩
    | cons r rs =>
      obtain ⟨i, hi, hround⟩ := fillRound_spec hd.ready his hne hweights maxPeers r rs
      generalize wheel fp (point fp r t.fill.totalWeight) t.fill.weights = j at hi hround
      have hmem := List.mem_of_getElem? hi
      obtain ⟨hgo, hstop⟩ := fillCount_succ hsmall hlt
      refine hround.imp ?_ ?_ ?_
      · rintro x _ ⟨peer, t₂, hsel, rfl, hx⟩
        have hdrew := hd.filled fp hsel hmem hnodup
        have hlen : (out ++ [peer]).length = out.length + 1 := by
          rw [List.length_append, List.length_singleton]
        have hsize : (filled fp t₂ peer j).outPeers.length = s.outPeers.length + (out.length + 1) := by
          rw [hdrew.outPeers, List.length_append, hlen]
        have hcount' : (filled fp t₂ peer j).fill.totalPeercount =
            toUnsigned ((total : Int) - (out.length + 1 : Nat)) := by
          change (t₂.fill.take fp j).totalPeercount = _
          rw [take_totalPeercount, hsel.1]
          change toUnsigned ((t.fill.totalPeercount : Int) - 1) = _
          rw [hcount, toUnsigned_sub_one]
          congr 1
          push_cast
          omega
        rw [hsize, hcount'] at hx
        cases x with
        | inl u =>
          refine ⟨_, ⟨hdrew, hlen ▸ hgo (hx.1 rfl)⟩, ?_, hlen ▸ hcount'⟩
          change (t₂.fill.take fp j).weights.length = _
          rw [length_weights_take, hsel.1]
          exact hweights
        | inr u =>
          exact ⟨_, hdrew, hlen.trans (hstop fun hcond => by cases hx.2 hcond)⟩
      · exact fun t' hsel => ⟨out, (hd.fill _).wait hsel.waits, hlt⟩
      · exact fun t' hw => ⟨out, (hd.fill _).wait hw, hlt⟩
  · simpa using (toUnsigned_natCast hsmall).symm

/-! ## The counters -/

/-- The counters of the stage agree with what is left of its PIDs. -/
structure Counted (n : Nat) (is : List Nat) (s : Selecting Peer) (out : List Peer)
    (t : Selecting Peer) : Prop where
  drew : Drew n is s out [] t
  peercount : t.fill.peercount = is.map fun i => (t.helper.left i).length
  length : t.fill.weights.length = is.length
  nonneg : ∀ w ∈ t.fill.weights, 0 ≤ w
  weight : ∀ (k i : Nat) (w : ℚ), is[k]? = some i → t.fill.weights[k]? = some w →
    (0 < w ↔ t.helper.left i ≠ [])
  totalPeercount : t.fill.totalPeercount = t.fill.peercount.sum

theorem sum_lengths (t : Selecting Peer) :
    (is.map fun i => (t.helper.left i).length).sum = (t.helper.pool is).length := by
  rw [PIDPeerSelectionHelper.pool, List.length_flatMap]

/-- What is left and what has been appended is what there was. -/
theorem Counted.sum {t : Selecting Peer} (hc : Counted n is s out t) :
    t.fill.peercount.sum + out.length = (s.helper.pool is).length := by
  have hlen := hc.drew.perm.length_eq
  rw [List.nil_append, List.length_append] at hlen
  rw [hc.peercount, sum_lengths]
  omega

/-- The numbers of peers after one has been taken. -/
theorem map_length_take {h h' : PIDPeerSelectionHelper Peer} {i j : Nat} {peer : Peer}
    (hsel : h.Selects n i (some peer) h') (hj : is[j]? = some i) (hnodup : is.Nodup) :
    (is.map fun i => (h'.left i).length) =
      (is.map fun i => (h.left i).length).modify j fun count => count - 1 := by
  apply List.ext_getElem?
  intro k
  rw [List.getElem?_modify, List.getElem?_map, List.getElem?_map]
  cases hk : is[k]? with
  | none => rfl
  | some i' =>
    by_cases hjk : j = k
    · subst hjk
      obtain rfl := Option.some.inj (hj.symm.trans hk)
      have hlen := (hsel.taken peer rfl).length_eq
      rw [List.length_cons] at hlen
      simp [← hlen]
    · have hne : i' ≠ i := by
        rintro rfl
        exact hjk ((List.getElem?_inj (List.getElem?_eq_some_iff.1 hj).1 hnodup).1
          (hj.trans hk.symm))
      simp [hjk, hsel.others i' hne]

theorem sum_modify_pred {l : List Nat} {j c : Nat} (hj : l[j]? = some c) (hpos : 0 < c) :
    (l.modify j fun count => count - 1).sum = l.sum - 1 ∧ 0 < l.sum := by
  induction l generalizing j with
  | nil => cases hj
  | cons a l ih =>
    cases j with
    | zero =>
      obtain rfl := Option.some.inj hj
      simp only [List.modify_zero_cons, List.sum_cons]
      omega
    | succ j =>
      obtain ⟨hsum, hlt⟩ := ih hj
      simp only [List.modify_succ_cons, List.sum_cons]
      omega

/-- No number is zero before it is decremented. -/
theorem modify_toUnsigned_pred {l : List Nat} {j c : Nat} (hj : l[j]? = some c) (hpos : 0 < c)
    (hsum : l.sum < 2 ^ 32) :
    (l.modify j fun count => toUnsigned ((count : Int) - 1)) = l.modify j fun count => count - 1 := by
  apply List.ext_getElem?
  intro k
  rw [List.getElem?_modify, List.getElem?_modify]
  split
  · next hjk =>
    subst hjk
    have hle := List.single_le_sum (l := l) (fun _ _ => Nat.zero_le _) c (List.mem_of_getElem? hj)
    rw [hj, Option.map_eq_map, Option.map_eq_map, Option.map_some, Option.map_some,
      toUnsigned_of_lt (by omega) (by omega)]
    congr 1
    omega
  · rfl

/-- A round that draws from an entry with peers keeps the counters right. -/
theorem Counted.filled (fp : Rounding) {t t₂ : Selecting Peer} {i j : Nat} {peer : Peer}
    (hc : Counted n is s out t) (hsmall : (s.helper.pool is).length < 2 ^ 32)
    (hsel : Selected n i (mark t j) (some peer) t₂) (hj : is[j]? = some i) (hnodup : is.Nodup) :
    Counted n is s (out ++ [peer]) (filled fp t₂ peer j) := by
  have hmem := List.mem_of_getElem? hj
  have hdrew := hc.drew.filled fp hsel hmem hnodup
  have hfill : t₂.fill = (mark t j).fill := by rw [hsel.1]
  have htaken := (hsel.2.taken peer rfl).length_eq
  rw [List.length_cons] at htaken
  have hcountj : t.fill.peercount[j]? = some (t.helper.left i).length := by
    rw [hc.peercount, List.getElem?_map, hj, Option.map_some]
  have hpos : 0 < (t.helper.left i).length := by
    change 0 < ((mark t j).helper.left i).length
    omega
  have hsum := hc.sum
  have hcount : (Selector.filled fp t₂ peer j).fill.peercount =
      is.map fun i => (t₂.helper.left i).length := by
    change (t₂.fill.take fp j).peercount = _
    rw [take_peercount, hfill, map_length_take hsel.2 hj hnodup]
    change (t.fill.peercount.modify j _) = (is.map fun i => (t.helper.left i).length).modify j _
    rw [← hc.peercount]
    exact modify_toUnsigned_pred hcountj hpos (by omega)
  have hcountj' : ((Selector.filled fp t₂ peer j).fill.peercount[j]?).getD 0 =
      (t₂.helper.left i).length := by
    rw [hcount, List.getElem?_map, hj, Option.map_some, Option.getD_some]
  have hweights : (Selector.filled fp t₂ peer j).fill.weights =
      if t₂.helper.left i = [] then t.fill.weights.set j 0 else t.fill.weights := by
    change (t₂.fill.take fp j).weights = _
    rw [take_weights]
    change (if ((Selector.filled fp t₂ peer j).fill.peercount[j]?).getD 0 = 0 then _ else _) = _
    rw [hcountj', hfill]
    simp only [List.length_eq_zero_iff]
    rfl
  have hjlt : j < t.fill.weights.length := by
    rw [hc.length]
    exact (List.getElem?_eq_some_iff.1 hj).1
  refine ⟨hdrew, hcount, ?_, ?_, ?_, ?_⟩
  · change (t₂.fill.take fp j).weights.length = _
    rw [length_weights_take, hfill]
    exact hc.length
  · intro w hw
    rw [hweights] at hw
    split at hw
    · rcases List.mem_or_eq_of_mem_set hw with hw | rfl
      · exact hc.nonneg w hw
      · exact le_refl _
    · exact hc.nonneg w hw
  · intro k i' w hk hw
    change _ ↔ t₂.helper.left i' ≠ []
    rw [hweights] at hw
    by_cases hjk : j = k
    · subst hjk
      obtain rfl := Option.some.inj (hj.symm.trans hk)
      split at hw
      · next hnil =>
        rw [List.getElem?_set_self hjlt] at hw
        obtain rfl := Option.some.inj hw
        exact iff_of_false (lt_irrefl _) (not_not.2 hnil)
      · next hne =>
        refine iff_of_true ((hc.weight j i w hj hw).2 ?_) hne
        exact List.length_pos_iff.1 hpos
    · have hne : i' ≠ i := by
        rintro rfl
        exact hjk ((List.getElem?_inj (List.getElem?_eq_some_iff.1 hj).1 hnodup).1
          (hj.trans hk.symm))
      rw [hsel.2.others i' hne]
      refine hc.weight k i' w hk ?_
      split at hw
      · rwa [List.getElem?_set_ne hjk] at hw
      · exact hw
  · rw [hcount]
    change (t₂.fill.take fp j).totalPeercount = _
    rw [take_totalPeercount, hfill]
    change toUnsigned ((t.fill.totalPeercount : Int) - 1) = _
    have hmod := sum_modify_pred hcountj hpos
    rw [map_length_take hsel.2 hj hnodup]
    change _ = ((is.map fun i => (t.helper.left i).length).modify j _).sum
    rw [← hc.peercount, hmod.1, hc.totalPeercount, toUnsigned_of_lt (by omega) (by omega)]
    omega

/-! ## The order in which the entries run dry -/

/-- The weights when these entries have run dry. -/
def dryWeights (weights : List ℚ) (order : List Nat) : List ℚ :=
  order.foldl (fun weights j => weights.set j 0) weights

/-- The total weight when these entries have run dry, one after the other. -/
def dryTotal (fp : Rounding) (weights : List ℚ) (order : List Nat) : ℚ :=
  order.foldl (fun total j => fp.sub total ((weights[j]?).getD 0)) (weights.foldl fp.add 0)

section Dry

variable {weights : List ℚ} {order : List Nat} {j : Nat}

theorem dryWeights_concat (weights : List ℚ) (order : List Nat) (j : Nat) :
    dryWeights weights (order ++ [j]) = (dryWeights weights order).set j 0 :=
  List.foldl_append

theorem dryTotal_concat (weights : List ℚ) (order : List Nat) (j : Nat) :
    dryTotal fp weights (order ++ [j]) =
      fp.sub (dryTotal fp weights order) ((weights[j]?).getD 0) :=
  List.foldl_append

theorem dryWeights_get (hj : j ∉ order) : (dryWeights weights order)[j]? = weights[j]? := by
  induction order using List.reverseRecOn with
  | nil => rfl
  | append_singleton order k ih =>
    rw [List.mem_append, List.mem_singleton, not_or] at hj
    rw [dryWeights_concat, List.getElem?_set_ne (Ne.symm hj.2), ih hj.1]

/-- A part of the weights is taken out. -/
theorem forall₂_dryWeights (weights : List ℚ) (order : List Nat) :
    List.Forall₂ (fun v w => v = w ∨ v = 0) (dryWeights weights order) weights := by
  have hset : ∀ {vs ws : List ℚ}, List.Forall₂ (fun v w => v = w ∨ v = 0) vs ws → ∀ j,
      List.Forall₂ (fun v w => v = w ∨ v = 0) (vs.set j 0) ws := by
    intro vs ws h
    induction h with
    | nil => exact fun _ => List.Forall₂.nil
    | cons hv hvs ih =>
      intro j
      cases j with
      | zero => exact List.Forall₂.cons (.inr rfl) hvs
      | succ j => exact List.Forall₂.cons hv (ih j)
  induction order using List.reverseRecOn with
  | nil => exact List.forall₂_same.2 fun _ _ => .inl rfl
  | append_singleton order j ih =>
    rw [dryWeights_concat]
    exact hset ih j

theorem exists_part {vs ws : List ℚ} (h : List.Forall₂ (fun v w => v = w ∨ v = 0) vs ws) :
    ∃ part : List ℚ, part.Sublist ws ∧ part.sum = vs.sum := by
  induction h with
  | nil => exact ⟨[], List.Sublist.refl _, rfl⟩
  | @cons v w vs ws hv hvs ih =>
    obtain ⟨part, hsub, hsum⟩ := ih
    rcases hv with rfl | rfl
    · exact ⟨v :: part, hsub.cons_cons v, by rw [List.sum_cons, List.sum_cons, hsum]⟩
    · exact ⟨part, hsub.cons w, by rw [List.sum_cons, zero_add, hsum]⟩

theorem dryWeights_nonneg (hpos : ∀ w ∈ weights, 0 ≤ w) (order : List Nat) :
    ∀ w ∈ dryWeights weights order, 0 ≤ w := by
  intro v hv
  obtain ⟨k, hk⟩ := List.mem_iff_getElem?.1 hv
  have hrel := forall₂_dryWeights weights order
  have hlt := (List.getElem?_eq_some_iff.1 hk).1
  have hlt' : k < weights.length := hrel.length_eq ▸ hlt
  have hkeep := hrel.get hlt hlt'
  rw [List.get_eq_getElem, List.get_eq_getElem, (List.getElem?_eq_some_iff.1 hk).2] at hkeep
  rcases hkeep with rfl | rfl
  · exact hpos _ (List.getElem_mem hlt')
  · exact le_rfl

/-- If no sum of weights is rounded the wheel can get to its end. -/
theorem round_drop_dryWeights (hexact : fp.ExactSums weights) (order : List Nat) (k : Nat) :
    fp.round ((dryWeights weights order).drop k).sum = ((dryWeights weights order).drop k).sum := by
  obtain ⟨part, hsub, hsum⟩ := exists_part (List.forall₂_drop k (forall₂_dryWeights weights order))
  rw [← hsum]
  exact hexact part (hsub.trans (List.drop_sublist _ _))

/-- If no sum of weights is rounded the total weight is the sum of those that are left. -/
theorem dryTotal_eq (hexact : fp.ExactSums weights) (hnodup : order.Nodup) :
    dryTotal fp weights order = (dryWeights weights order).sum := by
  induction order using List.reverseRecOn with
  | nil => exact hexact.foldl_add
  | append_singleton order j ih =>
    obtain ⟨hnodup, -, hdisjoint⟩ := List.nodup_append.1 hnodup
    have hj : j ∉ order := fun hj => hdisjoint j hj j (List.mem_singleton.2 rfl) rfl
    have hround := round_drop_dryWeights hexact (order ++ [j]) 0
    rw [List.drop_zero] at hround
    rw [dryTotal_concat, ih hnodup, Rounding.sub, ← hround, dryWeights_concat, ← dryWeights_get hj]
    congr 1
    rw [List.sum_set']
    by_cases hlt : j < (dryWeights weights order).length
    · rw [dif_pos hlt, List.getElem?_eq_getElem hlt, Option.getD_some, add_zero, sub_eq_add_neg]
    · rw [dif_neg hlt, List.getElem?_eq_none (not_lt.1 hlt), Option.getD_none, sub_zero, add_zero]

end Dry

theorem left_ne_nil_of_selected {t t₂ : Selecting Peer} {i j : Nat} {peer : Peer}
    (hsel : Selected n i (mark t j) (some peer) t₂) : t.helper.left i ≠ [] := by
  intro hnil
  have hperm : (peer :: t₂.helper.left i).Perm (t.helper.left i) := hsel.2.taken peer rfl
  rw [hnil] at hperm
  exact List.cons_ne_nil _ _ hperm.eq_nil

/-- The entries that have run dry, in this order, and what is left of the weights. -/
structure RunsDry (fp : Rounding) (weights : List ℚ) (is order : List Nat) (t : Selecting Peer) :
    Prop where
  nodup : order.Nodup
  valid : ∀ j ∈ order, j < is.length
  mem_iff : ∀ j i, is[j]? = some i → (j ∈ order ↔ t.helper.left i = [])
  weights_eq : t.fill.weights = dryWeights weights order
  total_eq : t.fill.totalWeight = dryTotal fp weights order

/-- Behind a draw the PIDs of the list that have run dry are those before it, and maybe its own. -/
theorem RunsDry.left_eq_nil_iff {t t₂ : Selecting Peer} {weights : List ℚ} {order : List Nat}
    {i j : Nat} {peer : Peer} (hd : RunsDry fp weights is order t)
    (hsel : Selected n i (mark t j) (some peer) t₂) (hj : is[j]? = some i) (hnodup : is.Nodup)
    {k i' : Nat} (hk : is[k]? = some i') :
    t₂.helper.left i' = [] ↔ k ∈ order ∨ k = j ∧ t₂.helper.left i = [] := by
  by_cases hkj : k = j
  · subst hkj
    obtain rfl := Option.some.inj (hj.symm.trans hk)
    have hnot : k ∉ order := fun hmem => left_ne_nil_of_selected hsel ((hd.mem_iff k i hj).1 hmem)
    rw [or_iff_right hnot, and_iff_right rfl]
  · have hother : t₂.helper.left i' = t.helper.left i' := by
      refine hsel.2.others i' ?_
      rintro rfl
      exact hkj ((List.getElem?_inj (List.getElem?_eq_some_iff.1 hk).1 hnodup).1 (hk.trans hj.symm))
    rw [hother, ← hd.mem_iff k i' hk]
    exact (or_iff_left fun h => hkj h.1).symm

/-- A round adds its entry to them if it has taken the last peer. -/
theorem RunsDry.filled {t t₂ : Selecting Peer} {weights : List ℚ} {order : List Nat} {i j : Nat}
    {peer : Peer} (hd : RunsDry fp weights is order t) (hc : Counted n is s out t)
    (hsmall : (s.helper.pool is).length < 2 ^ 32)
    (hsel : Selected n i (mark t j) (some peer) t₂) (hj : is[j]? = some i) (hnodup : is.Nodup) :
    ∃ order', RunsDry fp weights is order' (filled fp t₂ peer j) := by
  have hfill : t₂.fill = (mark t j).fill := by rw [hsel.1]
  have hnot : j ∉ order := fun hmem =>
    left_ne_nil_of_selected hsel ((hd.mem_iff j i hj).1 hmem)
  have hjlt := (List.getElem?_eq_some_iff.1 hj).1
  have hcount : ((t₂.fill.take fp j).peercount[j]?).getD 0 = (t₂.helper.left i).length := by
    have hcounted := hc.filled fp hsmall hsel hj hnodup
    have hmap : (t₂.fill.take fp j).peercount = is.map fun i => (t₂.helper.left i).length :=
      hcounted.peercount
    rw [hmap, List.getElem?_map, hj, Option.map_some, Option.getD_some]
  have hweights := take_weights fp t₂.fill j
  have htotal := take_totalWeight fp t₂.fill j
  rw [hcount, hfill] at hweights htotal
  by_cases hnil : t₂.helper.left i = []
  · have hzero := List.length_eq_zero_iff.2 hnil
    rw [if_pos hzero] at hweights htotal
    refine ⟨order ++ [j], ?_, ?_, ?_, ?_, ?_⟩
    · exact List.nodup_append.2 ⟨hd.nodup, List.nodup_singleton j,
        fun k hk l hl heq => hnot (by rwa [← List.mem_singleton.1 hl, ← heq])⟩
    · intro k hk
      rcases List.mem_append.1 hk with hk | hk
      · exact hd.valid k hk
      · rwa [List.mem_singleton.1 hk]
    · intro k i' hk
      change _ ↔ t₂.helper.left i' = []
      rw [hd.left_eq_nil_iff hsel hj hnodup hk, and_iff_left hnil, List.mem_append,
        List.mem_singleton]
    · change (t₂.fill.take fp j).weights = _
      rw [hfill, hweights, dryWeights_concat, ← hd.weights_eq]
      rfl
    · change (t₂.fill.take fp j).totalWeight = _
      have hweight : t.fill.weights[j]? = weights[j]? := by rw [hd.weights_eq, dryWeights_get hnot]
      rw [hfill, htotal, dryTotal_concat, ← hd.total_eq, ← hweight]
      rfl
  · have hpos := mt List.length_eq_zero_iff.1 hnil
    rw [if_neg hpos] at hweights htotal
    refine ⟨order, hd.nodup, hd.valid, ?_, ?_, ?_⟩
    · intro k i' hk
      change _ ↔ t₂.helper.left i' = []
      rw [hd.left_eq_nil_iff hsel hj hnodup hk, or_iff_left fun h => hnil h.2]
    · change (t₂.fill.take fp j).weights = _
      rw [hfill, hweights]
      exact hd.weights_eq
    · change (t₂.fill.take fp j).totalWeight = _
      rw [hfill, htotal]
      exact hd.total_eq

end Selector

end Alto.Selection
