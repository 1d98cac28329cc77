import Mathlib
import Alto.App.PeerSelection
import Alto.Verify.PeerBuckets

/-!
# Drawing peers from a PID

`PIDPeerSelectionHelper` draws without replacement: whatever its strategy, what is left of a PID
(`left`) loses the peer that is returned and nothing else, and `numPeers` is the number of what is left.
-/

namespace Alto.Selection

open Common Lib App Guidance

variable {randMax : Nat} {Peer : Type} [LinearOrder Peer]

/-! ## Machine integers -/

theorem toUnsigned_of_lt {n : Int} (hpos : 0 ≤ n) (hlt : n < 2 ^ 32) : toUnsigned n = n.toNat := by
  rw [toUnsigned, Int.emod_eq_of_lt hpos hlt]

theorem toUnsigned_natCast {n : Nat} (hlt : n < 2 ^ 32) : toUnsigned n = n :=
  toUnsigned_of_lt (by omega) (by omega)

theorem toUnsigned_natCast_le (n : Nat) : toUnsigned n ≤ n := by
  unfold toUnsigned
  omega

theorem tdiv_of_nonneg {x : ℚ} (hx : 0 ≤ x) : x.num.tdiv x.den = ⌊x⌋ := by
  rw [Int.tdiv_eq_ediv_of_nonneg (Rat.num_nonneg.2 hx), Rat.floor_def']

theorem tdiv_neg (x : ℚ) : (-x).num.tdiv (-x).den = -(x.num.tdiv x.den) := by
  rw [Rat.neg_num, Rat.neg_den, Int.neg_tdiv]

/-- The fraction is cut off. -/
theorem truncate_eq_floor {x : ℚ} (hx : 0 ≤ x) (hlt : x < 2 ^ 32) : (truncate x : Int) = ⌊x⌋ := by
  have hpos : 0 ≤ ⌊x⌋ := Int.floor_nonneg.2 hx
  have hsmall : ⌊x⌋ < 2 ^ 32 := Int.floor_lt.2 (by exact_mod_cast hlt)
  rw [truncate, tdiv_of_nonneg hx, toUnsigned_of_lt hpos hsmall, Int.toNat_of_nonneg hpos]

theorem cast_truncate_le {x : ℚ} (hx : 0 ≤ x) (hlt : x < 2 ^ 32) : (truncate x : ℚ) ≤ x := by
  have hfloor : ((truncate x : Int) : ℚ) = (⌊x⌋ : Int) := by rw [truncate_eq_floor hx hlt]
  rw [Int.cast_natCast] at hfloor
  rw [hfloor]
  exact Int.floor_le x

theorem truncate_le {x : ℚ} {n : Nat} (hx : 0 ≤ x) (hlt : x < n + 1) (hn : n < 2 ^ 32) :
    truncate x ≤ n := by
  have hn : (n : ℚ) + 1 ≤ 2 ^ 32 := by exact_mod_cast hn
  have hfloor := truncate_eq_floor hx (hlt.trans_le hn)
  have hle : ⌊x⌋ < (n : Int) + 1 := Int.floor_lt.2 (by push_cast; exact hlt)
  omega

theorem toUnsigned_eq_zero_iff {n : Int} (hlow : -2 ^ 32 < n) (hhigh : n < 2 ^ 32) :
    toUnsigned n = 0 ↔ n = 0 := by
  unfold toUnsigned
  omega

/-- What lies between -1 and 1 becomes zero, also below zero. -/
theorem truncate_eq_zero_iff {x : ℚ} (hlow : -2 ^ 32 < x) (hhigh : x < 2 ^ 32) :
    truncate x = 0 ↔ -1 < x ∧ x < 1 := by
  rcases le_or_gt 0 x with hx | hx
  · have hfloor := truncate_eq_floor hx hhigh
    have hzero : ⌊x⌋ = 0 ↔ x < 1 := by
      rw [Int.floor_eq_zero_iff]
      exact and_iff_right hx
    rw [← Nat.cast_eq_zero (R := Int), hfloor, hzero]
    exact (and_iff_right (by linarith)).symm
  · have hneg : x.num.tdiv x.den = -⌊-x⌋ := by
      have hback := tdiv_neg (-x)
      rw [neg_neg, tdiv_of_nonneg (x := -x) (by linarith)] at hback
      exact hback
    have hpos : 0 ≤ ⌊-x⌋ := Int.floor_nonneg.2 (by linarith)
    have hsmall : ⌊-x⌋ < 2 ^ 32 := Int.floor_lt.2 (by push_cast; linarith)
    have hzero : ⌊-x⌋ = 0 ↔ -1 < x := by
      rw [Int.floor_eq_zero_iff]
      constructor
      · intro h
        linarith [h.2]
      · exact fun h => ⟨by linarith, by linarith⟩
    rw [truncate, hneg, toUnsigned_eq_zero_iff (by omega) (by omega), neg_eq_zero, hzero]
    exact (and_iff_left (by linarith)).symm

theorem truncate_le_of_neg_one_lt {x : ℚ} {n : Nat} (hx : -1 < x) (hlt : x < n + 1) (hn : n < 2 ^ 32) :
    truncate x ≤ n := by
  rcases le_or_gt 0 x with hpos | hneg
  · exact truncate_le hpos hlt hn
  · exact (truncate_eq_zero_iff (by linarith) (by linarith)).2 ⟨hx, by linarith⟩ |>.trans_le n.zero_le

/-! ## What is left of a PID -/

/-- The peers of an entry that have not been drawn. -/
def PIDInfo.left (info : PIDInfo Peer) (peers : List Peer) : List Peer :=
  match info.strategy with
  | .unknown => peers
  | .copy => info.candidates
  | .nocopy => peers.filter fun p => some p ∉ info.selected

/-- An entry of the helper for the PID with this index. -/
structure PIDInfo.Fits (view : PerISPPeerDistribution Peer) (total i : Nat) (info : PIDInfo Peer) :
    Prop where
  count : info.numPeers =
    ((view.listPIDPeers i).map fun peers => ((info.left peers).length : Int)).getD (-1)
  fresh : info.strategy = .unknown → info.candidates = [] ∧ info.selected = []
  invalid : view.listPIDPeers i = none → info.strategy = .unknown
  large : info.strategy = .nocopy → ∀ peers, view.listPIDPeers i = some peers →
    toUnsigned (4 * total) < toUnsigned peers.length
  among : ∀ peers, view.listPIDPeers i = some peers → (info.left peers).Subperm peers

namespace PIDPeerSelectionHelper

/-- The helper for a distribution with this many PIDs, in a state that it can be in. -/
structure Ready (n : Nat) (h : PIDPeerSelectionHelper Peer) : Prop where
  length : n ≤ h.pidinfo.length
  fits : ∀ i info, i < n → h.pidinfo[i]? = some info → info.Fits h.ispPeers h.totalPeers i
  nodup : ∀ (i : Nat) peers, h.ispPeers.listPIDPeers i = some peers → peers.Nodup

/-- The peers that are left of a PID. -/
def left (h : PIDPeerSelectionHelper Peer) (i : Nat) : List Peer :=
  match h.pidinfo[i]?, h.ispPeers.listPIDPeers i with
  | some info, some peers => info.left peers
  | _, _ => []

variable {h h' : PIDPeerSelectionHelper Peer} {n i j : Nat} {info : PIDInfo Peer}

theorem entry_natCast (i : Nat) : h.entry i = h.pidinfo[i]? := by
  rw [entry, if_neg (by omega), Int.toNat_natCast]

theorem info_natCast (i : Nat) : h.info i = h.pidinfo[i]? := by
  have hne : (i : Int) ≠ errUnknownPID := by
    unfold errUnknownPID
    omega
  rw [info, pidIdx, if_neg hne, entry_natCast]

theorem setInfo_natCast (i : Nat) (info : PIDInfo Peer) :
    h.setInfo i info = { h with pidinfo := h.pidinfo.set i info } := by
  have hne : (i : Int) ≠ errUnknownPID := by
    unfold errUnknownPID
    omega
  rw [setInfo, pidIdx, if_neg hne, Int.toNat_natCast]

theorem Ready.exists_info (hr : Ready n h) (hi : i < n) :
    ∃ info, h.pidinfo[i]? = some info ∧ info.Fits h.ispPeers h.totalPeers i := by
  have hlt : i < h.pidinfo.length := hi.trans_le hr.length
  exact ⟨_, List.getElem?_eq_getElem hlt, hr.fits i _ hi (List.getElem?_eq_getElem hlt)⟩

/-- The entry of a valid PID counts what is left. -/
theorem Ready.numPeers_eq (hr : Ready n h) (hi : i < n) (hinfo : h.pidinfo[i]? = some info) :
    info.numPeers = if h.ispPeers.listPIDPeers i = none then -1 else ((h.left i).length : Int) := by
  rw [(hr.fits i info hi hinfo).count, left, hinfo]
  cases h.ispPeers.listPIDPeers i with
  | none => rfl
  | some peers => rfl

/-- A new entry for one PID. -/
theorem Ready.setInfo (hr : Ready n h) (hfits : info.Fits h.ispPeers h.totalPeers i) :
    Ready n (h.setInfo i info) where
  length := by
    rw [setInfo_natCast, List.length_set]
    exact hr.length
  fits j info' hj hinfo' := by
    rw [setInfo_natCast] at hinfo' ⊢
    rw [List.getElem?_set] at hinfo'
    split at hinfo'
    · next hij =>
      subst hij
      split at hinfo'
      · cases hinfo'
        exact hfits
      · cases hinfo'
    · exact hr.fits j info' hj hinfo'
  nodup := by
    rw [setInfo_natCast]
    exact hr.nodup

theorem length_setInfo : (h.setInfo i info).pidinfo.length = h.pidinfo.length := by
  rw [setInfo_natCast, List.length_set]

theorem left_setInfo_ne (hij : i ≠ j) : (h.setInfo i info).left j = h.left j := by
  rw [setInfo_natCast, left, left, List.getElem?_set_ne hij]

theorem left_setInfo_self (hi : i < h.pidinfo.length) {peers : List Peer}
    (hpeers : h.ispPeers.listPIDPeers i = some peers) : (h.setInfo i info).left i = info.left peers := by
  rw [setInfo_natCast, left, List.getElem?_set_self hi, hpeers]

/-- What a call of `selectPeer` for a PID does to the helper. -/
structure Selects (n i : Nat) (h : PIDPeerSelectionHelper Peer) (result : Option Peer)
    (h' : PIDPeerSelectionHelper Peer) : Prop where
  ready : Ready n h'
  length : h'.pidinfo.length = h.pidinfo.length
  ispPeers : h'.ispPeers = h.ispPeers
  totalPeers : h'.totalPeers = h.totalPeers
  others : ∀ j, j ≠ i → h'.left j = h.left j
  empty : result = none → h.left i = [] ∧ h'.left i = []
  taken : ∀ peer, result = some peer → (peer :: h'.left i).Perm (h.left i)

theorem listPIDPeers_none_iff {view : PerISPPeerDistribution Peer} (info : PIDInfo Peer)
    (hfits : info.Fits view n i) : view.listPIDPeers i = none ↔ info.numPeers < 0 := by
  rw [hfits.count]
  cases view.listPIDPeers i with
  | none => simp
  | some peers => simp

/-- The strategy that is chosen leaves as much as there was. A PID is invalid if none is chosen. -/
theorem chooseStrategy_spec (hr : Ready n h) (hi : i < n) (hinfo : h.pidinfo[i]? = some info) :
    (h.chooseStrategy i info).2.Fits h.ispPeers h.totalPeers i ∧
      (∀ peers, h.ispPeers.listPIDPeers i = some peers →
        (h.chooseStrategy i info).2.left peers = info.left peers) ∧
      ((h.chooseStrategy i info).1 = false → h.ispPeers.listPIDPeers i = none) ∧
      ((h.chooseStrategy i info).1 = true → h.ispPeers.listPIDPeers i ≠ none ∧
        (h.chooseStrategy i info).2.strategy ≠ .unknown) := by
  have hfits := hr.fits i info hi hinfo
  have hvalid := listPIDPeers_none_iff info hfits
  unfold chooseStrategy
  split
  · next hunknown =>
    split
    · next hneg => exact ⟨hfits, fun _ _ => rfl, fun _ => hvalid.2 hneg, nofun⟩
    next hpos =>
    obtain ⟨peers, hpeers⟩ := Option.ne_none_iff_exists'.1 (mt hvalid.1 hpos)
    have hcount := hfits.count
    rw [hpeers, Option.map_some, Option.getD_some] at hcount
    have hleft : info.left peers = peers := by rw [PIDInfo.left, hunknown]
    rw [hleft] at hcount
    rw [hpeers]
    obtain ⟨hcandidates, hselected⟩ := hfits.fresh hunknown
    have hnocopy : ({ info with strategy := .nocopy } : PIDInfo Peer).left peers = peers := by
      simp [PIDInfo.left, hselected]
    have hcopy : ({ info with strategy := .copy, candidates := info.candidates ++ peers } :
        PIDInfo Peer).left peers = peers := by
      simp [PIDInfo.left, hcandidates]
    split
    · next hlarge =>
      refine ⟨⟨?_, nofun, ?_, ?_, ?_⟩, ?_, nofun, fun _ => ⟨nofun, nofun⟩⟩
      · rw [hpeers, Option.map_some, Option.getD_some, hnocopy]
        exact hcount
      · rw [hpeers]
        exact nofun
      · intro _ peers' hpeers'
        cases hpeers.symm.trans hpeers'
        rw [hcount] at hlarge
        exact hlarge
      · intro peers' hpeers'
        cases hpeers.symm.trans hpeers'
        rw [hnocopy]
      · rintro _ ⟨⟩
        rw [hleft, hnocopy]
    · refine ⟨⟨?_, nofun, ?_, nofun, ?_⟩, ?_, nofun, fun _ => ⟨nofun, nofun⟩⟩
      · rw [hpeers, Option.map_some, Option.getD_some, hcopy]
        exact hcount
      · rw [hpeers]
        exact nofun
      · intro peers' hpeers'
        cases hpeers.symm.trans hpeers'
        rw [hcopy]
      · rintro _ ⟨⟩
        rw [hleft, hcopy]
  · next hknown =>
    refine ⟨hfits, fun _ _ => rfl, nofun, fun _ => ⟨?_, hknown⟩⟩
    exact fun hnone => hknown (hfits.invalid hnone)

end PIDPeerSelectionHelper

/-! ## The two strategies -/

theorem perm_swap_pop {A : Type} {l : List A} {k : Nat} {x back : A} (hx : l[k]? = some x)
    (hback : l.getLast? = some back) : (x :: (l.set k back).dropLast).Perm l := by
  obtain ⟨d, rfl⟩ : ∃ d, l = d ++ [back] := List.getLast?_eq_some_iff.1 hback
  by_cases hk : k < d.length
  · rw [List.set_append_left _ _ hk, List.dropLast_concat]
    rw [List.getElem?_append_left hk, List.getElem?_eq_getElem hk, Option.some.injEq] at hx
    subst hx
    calc (d[k] :: d.set k back).Perm (d[k] :: back :: d.eraseIdx k) :=
          .cons _ (List.set_perm_cons_eraseIdx hk back)
      _ |>.Perm (back :: d[k] :: d.eraseIdx k) := .swap ..
      _ |>.Perm (back :: d) := .cons _ (List.getElem_cons_eraseIdx_perm hk)
      _ |>.Perm (d ++ [back]) := (List.perm_append_singleton back d).symm
  · have hlen : k = d.length := by
      have := (List.getElem?_eq_some_iff.1 hx).1
      rw [List.length_append, List.length_singleton] at this
      omega
    subst hlen
    rw [List.getElem?_concat_length, Option.some.injEq] at hx
    subst hx
    rw [List.set_append_right _ _ (Nat.le_refl _), Nat.sub_self, List.set_cons_zero,
      List.dropLast_concat]
    exact (List.perm_append_singleton _ d).symm

/-- One more element is left out. -/
theorem perm_filter_new {A : Type} [DecidableEq A] {l : List A} {x : A} {out : List (Option A)}
    (hl : l.Nodup) (hx : x ∈ l) (hnew : some x ∉ out) :
    (x :: l.filter fun a => some a ∉ some x :: out).Perm (l.filter fun a => some a ∉ out) := by
  have hfilter : (l.filter fun a => some a ∉ some x :: out) =
      (l.filter fun a => some a ∉ out).erase x := by
    rw [(hl.filter _).erase_eq_filter, List.filter_filter]
    apply List.filter_congr
    intro a _
    by_cases ha : a = x <;> simp [ha]
  rw [hfilter]
  exact (List.perm_cons_erase (List.mem_filter.2 ⟨hx, by simpa using hnew⟩)).symm

namespace PIDPeerSelectionHelper

variable {h : PIDPeerSelectionHelper Peer} {n i : Nat} {info info' : PIDInfo Peer}
  {peers : List Peer} {peer : Peer}

theorem Ready.left_eq (hinfo : h.pidinfo[i]? = some info)
    (hpeers : h.ispPeers.listPIDPeers i = some peers) : h.left i = info.left peers := by
  rw [left, hinfo, hpeers]

theorem Selects.refl_none (hr : Ready n h) (hempty : h.left i = []) : Selects n i h none h where
  ready := hr
  length := rfl
  ispPeers := rfl
  totalPeers := rfl
  others _ _ := rfl
  empty _ := ⟨hempty, hempty⟩
  taken _ hsome := nomatch hsome

/-- An entry from which a peer has been taken. -/
theorem Ready.selects_take (hr : Ready n h) (hi : i < n) (hinfo : h.pidinfo[i]? = some info)
    (hpeers : h.ispPeers.listPIDPeers i = some peers)
    (hperm : (peer :: info'.left peers).Perm (info.left peers))
    (hcount : info'.numPeers = info.numPeers - 1) (hstrategy : info'.strategy = info.strategy)
    (hknown : info.strategy ≠ .unknown) : Selects n i h (some peer) (h.setInfo i info') := by
  have hfits := hr.fits i info hi hinfo
  have hlt : i < h.pidinfo.length := (List.getElem?_eq_some_iff.1 hinfo).1
  refine ⟨hr.setInfo ⟨?_, ?_, ?_, ?_, ?_⟩, length_setInfo, ?_, ?_, ?_, nofun, ?_⟩
  · have hlen := hperm.length_eq
    have hbefore := hfits.count
    rw [hpeers, Option.map_some, Option.getD_some] at hbefore ⊢
    rw [List.length_cons] at hlen
    omega
  · exact fun hunknown => absurd (hstrategy.symm.trans hunknown) hknown
  · intro hnone
    rw [hpeers] at hnone
    cases hnone
  · exact fun hnocopy => hfits.large (hstrategy.symm.trans hnocopy)
  · intro peers' hpeers'
    cases hpeers.symm.trans hpeers'
    have hsub : (info'.left peers).Subperm (peer :: info'.left peers) :=
      (List.sublist_cons_self _ _).subperm
    exact hsub.trans (hperm.subperm.trans (hfits.among peers hpeers))
  · rw [setInfo_natCast]
  · rw [setInfo_natCast]
  · exact fun j hj => left_setInfo_ne (Ne.symm hj)
  · rintro _ ⟨⟩
    rw [left_setInfo_self hlt hpeers, Ready.left_eq hinfo hpeers]
    exact hperm

end PIDPeerSelectionHelper

namespace Selector

variable {s : Selecting Peer} {n i : Nat} {info : PIDInfo Peer} {peers : List Peer}

/-- How a call of `selectPeer` for a PID can end. It changes nothing but the helper. -/
def Selected (n i : Nat) (s : Selecting Peer) (result : Option Peer) (s' : Selecting Peer) : Prop :=
  s' = { s with helper := s'.helper } ∧ s.helper.Selects n i result s'.helper

theorem takeCopied_spec (hr : s.helper.Ready n) (hi : i < n) (hinfo : s.helper.pidinfo[i]? = some info)
    (hpeers : s.helper.ispPeers.listPIDPeers i = some peers) (hcopy : info.strategy = .copy)
    (rs : List (Fin (randMax + 1))) :
    (takeCopied i info s rs).Holds (Selected n i s) (fun _ => False) (fun s' => s' = s) := by
  have hleft : info.left peers = info.candidates := by rw [PIDInfo.left, hcopy]
  unfold takeCopied
  split
  · next hempty =>
    refine ⟨rfl, .refl_none hr ?_⟩
    rw [PIDPeerSelectionHelper.Ready.left_eq hinfo hpeers, hleft]
    exact List.isEmpty_iff.1 hempty
  next hne =>
  have hpos : 0 < info.candidates.length :=
    List.length_pos_iff.2 fun hnil => hne (List.isEmpty_iff.2 hnil)
  cases rs with
  | nil => exact rfl
  | cons r rs =>
    rw [Draws.bind_apply]
    simp only [Draws.draw, Drawn.andThen]
    have hidx : (r : Nat) % info.candidates.length < info.candidates.length := Nat.mod_lt _ hpos
    have hget := List.getElem?_eq_getElem hidx
    have hback := List.getLast?_eq_some_getLast (List.ne_nil_of_length_pos hpos)
    rw [hget, hback]
    refine ⟨rfl, hr.selects_take hi hinfo hpeers ?_ rfl rfl ?_⟩
    · have hleft' : ∀ candidates numPeers, PIDInfo.left
          { info with candidates, numPeers } peers = candidates := by
        intro candidates numPeers
        rw [PIDInfo.left, hcopy]
      rw [hleft, hleft']
      exact perm_swap_pop hget hback
    · rw [hcopy]
      simp

/-- The peers that `getRandomPeer` chooses from. -/
theorem getRandomPeer_spec {view : PerISPPeerDistribution Peer} (hpeers : view.listPIDPeers i = some peers)
    (hne : peers ≠ []) (s : Selecting Peer) (rs : List (Fin (randMax + 1))) :
    (getRandomPeer view i s rs).Holds
      (fun result s' => s' = s ∧ ∃ peer, result = some peer ∧ peer ∈ peers) (fun _ => False)
      (fun s' => s' = s) := by
  obtain ⟨b, hb, rfl⟩ := Option.map_eq_some_iff.1 hpeers
  have hsize : 0 < b.size := by
    rcases Nat.eq_zero_or_pos b.size with hzero | hpos
    · exact absurd (by simp [RandomAccessSet.elements, hzero]) hne
    · exact hpos
  have hnum : 0 < view.getNumPeers i := by
    rw [PerISPPeerDistribution.getNumPeers, hb]
    exact Int.natCast_pos.2 hsize
  unfold getRandomPeer
  rw [if_pos hnum]
  cases rs with
  | nil => exact rfl
  | cons r rs =>
    refine ⟨rfl, b.vec (r % b.size), ?_, ?_⟩
    · rw [PerISPPeerDistribution.getRandomPeer, hb, Option.bind_some, if_neg (Nat.ne_of_gt hsize)]
    · exact List.mem_map.2 ⟨_, List.mem_range.2 (Nat.mod_lt _ hsize), rfl⟩

theorem takeUnselected_spec (hr : s.helper.Ready n) (hi : i < n)
    (hinfo : s.helper.pidinfo[i]? = some info)
    (hpeers : s.helper.ispPeers.listPIDPeers i = some peers) (hnocopy : info.strategy = .nocopy)
    (rs : List (Fin (randMax + 1))) :
    (takeUnselected s.helper.ispPeers i info s rs).Holds (Selected n i s) (fun _ => False)
      (fun s' => s' = s) := by
  have hfits := hr.fits i info hi hinfo
  have hne : peers ≠ [] := by
    rintro rfl
    exact Nat.not_lt_zero _ ((hfits.large hnocopy _ hpeers).trans_le (toUnsigned_natCast_le _))
  have hleft : ∀ selected numPeers, PIDInfo.left { info with selected, numPeers } peers =
      peers.filter fun p => some p ∉ selected := by
    intro selected numPeers
    rw [PIDInfo.left, hnocopy]
  have hloop : Draws.Triple (fun t => t = s)
      (Draws.loop (fun () => do
        let peer ← getRandomPeer s.helper.ispPeers i
        if peer ∈ info.selected then pure (.inl ()) else pure (.inr peer)) () :
          Selector randMax Peer (Option Peer))
      (fun result t => t = s ∧ ∃ peer, result = some peer ∧ peer ∈ peers ∧ some peer ∉ info.selected)
      (fun _ => False) (fun t => t = s) := by
    refine Draws.triple_loop (J := fun _ t => t = s) (fun _ => ?_) (fun _ _ ht => ht) ()
    rintro t rs rfl
    refine Draws.holds_bind (getRandomPeer_spec hpeers hne t rs) ?_
    rintro _ _ rest ⟨rfl, peer, rfl, hmem⟩
    split
    · exact rfl
    · next hnew => exact ⟨rfl, peer, rfl, hmem, hnew⟩
  refine Draws.holds_bind (hloop s rs rfl) ?_
  rintro _ _ rest ⟨rfl, peer, rfl, hmem, hnew⟩
  refine ⟨rfl, hr.selects_take hi hinfo hpeers ?_ rfl rfl ?_⟩
  · have hbefore := hleft info.selected info.numPeers
    rw [hleft, hbefore]
    exact perm_filter_new (hr.nodup i peers hpeers) hmem hnew
  · rw [hnocopy]
    exact nofun

/-- Waiting for `rand`, the helper has at most chosen a strategy. -/
structure Waits (n : Nat) (s s' : Selecting Peer) : Prop where
  frame : s' = { s with helper := s'.helper }
  ready : s'.helper.Ready n
  length : s'.helper.pidinfo.length = s.helper.pidinfo.length
  ispPeers : s'.helper.ispPeers = s.helper.ispPeers
  totalPeers : s'.helper.totalPeers = s.helper.totalPeers
  left : s'.helper.left = s.helper.left

theorem selectPeer_spec (hr : s.helper.Ready n) (hi : i < n) (rs : List (Fin (randMax + 1))) :
    (selectPeer i s rs).Holds (Selected n i s) (fun _ => False) (Waits n s) := by
  obtain ⟨info, hinfo, hfits⟩ := hr.exists_info hi
  obtain ⟨hfits', hleft, hinvalid, hvalid⟩ :=
    PIDPeerSelectionHelper.chooseStrategy_spec hr hi hinfo
  unfold selectPeer
  simp only [Draws.bind_apply, Draws.get, Drawn.andThen,
    PIDPeerSelectionHelper.info_natCast, hinfo, setInfo, Draws.modify]
  generalize hchoice : s.helper.chooseStrategy i info = choice at *
  obtain ⟨chosen, info'⟩ := choice
  -- the entry with its strategy leaves as much as before
  have hr' : (s.helper.setInfo i info').Ready n := hr.setInfo hfits'
  have hlt : i < s.helper.pidinfo.length := (List.getElem?_eq_some_iff.1 hinfo).1
  have hset := PIDPeerSelectionHelper.setInfo_natCast (h := s.helper) i info'
  have hisp : (s.helper.setInfo i info').ispPeers = s.helper.ispPeers := by rw [hset]
  have htotal : (s.helper.setInfo i info').totalPeers = s.helper.totalPeers := by rw [hset]
  have hinfo' : (s.helper.setInfo i info').pidinfo[i]? = some info' := by
    rw [hset, List.getElem?_set_self hlt]
  have hsame : (s.helper.setInfo i info').left = s.helper.left := by
    funext j
    by_cases hj : i = j
    · subst hj
      cases hpeers : s.helper.ispPeers.listPIDPeers i with
      | none =>
        rw [PIDPeerSelectionHelper.left, PIDPeerSelectionHelper.left, hisp, hinfo', hinfo, hpeers]
      | some peers =>
        rw [PIDPeerSelectionHelper.left_setInfo_self hlt hpeers, hleft peers hpeers,
          PIDPeerSelectionHelper.Ready.left_eq hinfo hpeers]
    · exact PIDPeerSelectionHelper.left_setInfo_ne hj
  have hback : ∀ result t, Selected n i { s with helper := s.helper.setInfo i info' } result t →
      Selected n i s result t := by
    rintro result t ⟨hframe, hsel⟩
    refine ⟨hframe, hsel.ready, hsel.length.trans PIDPeerSelectionHelper.length_setInfo,
      hsel.ispPeers.trans hisp, hsel.totalPeers.trans htotal, ?_, ?_, ?_⟩
    · exact fun j hj => (hsel.others j hj).trans (congrFun hsame j)
    · intro hnone
      rw [← hsame]
      exact hsel.empty hnone
    · intro peer hpeer
      rw [← hsame]
      exact hsel.taken peer hpeer
  have hwait : ∀ t, t = { s with helper := s.helper.setInfo i info' } → Waits n s t := by
    rintro t rfl
    exact ⟨rfl, hr', PIDPeerSelectionHelper.length_setInfo, hisp, htotal, hsame⟩
  cases chosen with
  | false =>
    simp only [Bool.not_false, if_true]
    refine hback none _ ⟨rfl, .refl_none hr' ?_⟩
    rw [PIDPeerSelectionHelper.left, hisp, hinvalid rfl]
    cases (s.helper.setInfo i info').pidinfo[i]? <;> rfl
  | true =>
    obtain ⟨hne, hknown⟩ := hvalid rfl
    obtain ⟨peers, hpeers⟩ := Option.ne_none_iff_exists'.1 hne
    rw [← hisp] at hpeers
    simp only [Bool.not_true, Bool.false_eq_true, if_false]
    split
    · next hcopy =>
      have hspec := takeCopied_spec (s := { s with helper := s.helper.setInfo i info' })
        hr' hi hinfo' hpeers hcopy rs
      exact hspec.imp hback (fun _ => id) hwait
    · next hcopy =>
      have hnocopy : info'.strategy = .nocopy := by
        cases hs : info'.strategy with
        | unknown => exact absurd hs hknown
        | copy => exact absurd hs hcopy
        | nocopy => rfl
      have hspec := takeUnselected_spec (s := { s with helper := s.helper.setInfo i info' })
        hr' hi hinfo' hpeers hnocopy rs
      rw [show (({ s with helper := s.helper.setInfo i info' } : Selecting Peer).helper.ispPeers) =
        s.helper.ispPeers from hisp] at hspec
      exact hspec.imp hback (fun _ => id) hwait

/-! ## Drawing from some PIDs -/

/-- The coin falls on an entry that is positive, whatever the other ones are. -/
theorem pick_spec {coin : Int} {counts : List Int} (hpos : 0 ≤ coin) (hlt : coin < counts.sum) :
    ∃ count, counts[pick coin counts]? = some count ∧ 0 < count := by
  induction counts generalizing coin with
  | nil =>
    rw [List.sum_nil] at hlt
    omega
  | cons count counts ih =>
    rw [List.sum_cons] at hlt
    cases counts with
    | nil =>
      refine ⟨count, rfl, ?_⟩
      rw [List.sum_nil] at hlt
      omega
    | cons count' counts =>
      rw [pick]
      split
      · next hhere => exact ⟨count, rfl, by omega⟩
      · next hthere =>
        obtain ⟨found, hfound, hfoundpos⟩ := ih (show 0 ≤ coin - count by omega) (by omega)
        exact ⟨found, by rw [List.getElem?_cons_succ]; exact hfound, hfoundpos⟩

theorem getElem?_of_forall₂ {A B : Type} {R : A → B → Prop} {as : List A} {bs : List B}
    (hall : List.Forall₂ R as bs) {k : Nat} {b : B} (hb : bs[k]? = some b) :
    ∃ a, as[k]? = some a ∧ R a b := by
  induction hall generalizing k with
  | nil => cases hb
  | @cons a' b' as bs hab hall ih =>
    cases k with
    | zero =>
      cases hb
      exact ⟨a', rfl, hab⟩
    | succ k => exact ih hb

/-- The entries of some PIDs. -/
theorem exists_infos {h : PIDPeerSelectionHelper Peer} (hr : h.Ready n) {is : List Nat}
    (his : ∀ i ∈ is, i < n) : ∃ infos, (pidList is).mapM h.entry = some infos ∧
      List.Forall₂ (fun i info => h.pidinfo[i]? = some info) is infos := by
  induction is with
  | nil => exact ⟨[], rfl, .nil⟩
  | cons i is ih =>
    obtain ⟨info, hinfo, -⟩ := hr.exists_info (his i List.mem_cons_self)
    obtain ⟨infos, hinfos, hall⟩ := ih fun j hj => his j (List.mem_cons_of_mem _ hj)
    refine ⟨info :: infos, ?_, .cons hinfo hall⟩
    rw [pidList, List.map_cons, List.mapM_cons, PIDPeerSelectionHelper.entry_natCast, hinfo]
    rw [pidList] at hinfos
    rw [hinfos]
    rfl

/-- The sum that `selectPeer` computes for some PIDs. An invalid PID counts as -1. -/
def stock (h : PIDPeerSelectionHelper Peer) (is : List Nat) : Int :=
  (is.map fun i : Nat =>
    if h.ispPeers.listPIDPeers i = none then -1 else ((h.left i).length : Int)).sum

theorem counts_eq {h : PIDPeerSelectionHelper Peer} (hr : h.Ready n) {is : List Nat}
    {infos : List (PIDInfo Peer)} (his : ∀ i ∈ is, i < n)
    (hall : List.Forall₂ (fun i info => h.pidinfo[i]? = some info) is infos) :
    (infos.map (·.numPeers)).sum = stock h is := by
  unfold stock
  induction hall with
  | nil => rfl
  | @cons i info is infos hinfo hall ih =>
    rw [List.map_cons, List.sum_cons, List.map_cons, List.sum_cons,
      ih fun j hj => his j (List.mem_cons_of_mem _ hj),
      hr.numPeers_eq (his i List.mem_cons_self) hinfo]

/-- How a call of `selectPeer` for some PIDs can end. -/
structure SelectedOf (n : Nat) (is : List Nat) (s : Selecting Peer) (result : Option Peer)
    (s' : Selecting Peer) : Prop where
  empty : result = none → s' = s ∧ stock s.helper is ≤ 0
  taken : ∀ peer, result = some peer →
    0 < stock s.helper is ∧ ∃ i ∈ is, Selected n i s (some peer) s'

theorem selectPeerOf_spec (hr : s.helper.Ready n) {is : List Nat} (his : ∀ i ∈ is, i < n)
    (rs : List (Fin (randMax + 1))) :
    (selectPeerOf (pidList is) s rs).Holds (SelectedOf n is s)
      (fun _ => False) (Waits n s) := by
  obtain ⟨infos, hinfos, hall⟩ := exists_infos hr his
  unfold selectPeerOf
  simp only [Draws.bind_apply, Draws.get, Drawn.andThen, hinfos]
  split
  · next hsum =>
    exact ⟨fun _ => ⟨rfl, (counts_eq hr his hall).symm.trans_le hsum⟩, by simp⟩
  next hsum =>
  cases rs with
  | nil => exact ⟨rfl, hr, rfl, rfl, rfl, rfl⟩
  | cons r rs =>
    have hsum' : 0 < (infos.map (·.numPeers)).sum := by omega
    obtain ⟨count, hcount, hpos⟩ := pick_spec (Int.emod_nonneg (r : Nat) (Int.ne_of_gt hsum'))
      (Int.emod_lt_of_pos (r : Nat) hsum')
    simp only [Draws.bind_apply, Draws.draw, Drawn.andThen]
    rw [List.getElem?_map, Option.map_eq_some_iff] at hcount
    obtain ⟨info, hinfo, rfl⟩ := hcount
    obtain ⟨i, hi, hinfo'⟩ := getElem?_of_forall₂ hall hinfo
    rw [pidList, List.getElem?_map, hi, Option.map_some]
    have hmem := List.mem_of_getElem? hi
    refine (selectPeer_spec hr (his i hmem) rs).imp ?_ (fun _ => id) (fun _ => id)
    intro result t hsel
    refine ⟨?_, ?_⟩
    · intro hnone
      -- the PID that the coin falls on has peers left
      have hempty := (hsel.2.empty hnone).1
      rw [hr.numPeers_eq (his i hmem) hinfo', hempty] at hpos
      split at hpos <;> simp at hpos
    · rintro peer rfl
      exact ⟨hsum'.trans_eq (counts_eq hr his hall), i, hmem, hsel⟩

/-! ## What is used up -/

theorem eats_getRandomPeer (view : PerISPPeerDistribution Peer) (pid : Int) :
    Draws.Eats (fun result => result.isSome = true)
      (getRandomPeer view pid : Selector randMax Peer (Option Peer)) := by
  unfold getRandomPeer
  refine .ite (fun _ => ?_) fun _ => Draws.eats_pure nofun
  exact (Draws.eats_draw fun _ => True).bind (F := fun _ _ => False)
    (fun r => Draws.eats_pure id) fun _ _ _ => .inl trivial

theorem eats_setInfo (pid : Int) (info : PIDInfo Peer) :
    Draws.Eats (fun _ => False) (setInfo pid info : Selector randMax Peer Unit) :=
  Draws.eats_modify _

theorem eats_takeCopied (pid : Int) (info : PIDInfo Peer) :
    Draws.Eats (fun result => result.isSome = true)
      (takeCopied pid info : Selector randMax Peer (Option Peer)) := by
  unfold takeCopied
  refine .ite (fun _ => Draws.eats_pure nofun) fun _ => ?_
  refine (Draws.eats_draw fun _ => True).bind (F := fun _ _ => False) (fun r => ?_)
    fun _ _ _ => .inl trivial
  dsimp only
  split
  · exact (eats_setInfo pid _).bind (F := fun _ _ => False) (fun _ => Draws.eats_pure id)
      fun _ _ => False.elim
  · exact Draws.eats_undefined _

theorem eats_takeUnselected (view : PerISPPeerDistribution Peer) (pid : Int) (info : PIDInfo Peer) :
    Draws.Eats (fun result => result.isSome = true)
      (takeUnselected view pid info : Selector randMax Peer (Option Peer)) := by
  unfold takeUnselected
  refine (Draws.eats_loop (C := fun result => result.isSome = true) (fun _ => ?_) ()).bind
    (F := fun peer result => result ≠ peer) (fun peer => ?_) ?_
  · refine (eats_getRandomPeer view pid).bind (F := fun peer x => x ≠ .inl () ∧ x ≠ .inr peer)
      (fun peer => .ite (fun _ => Draws.eats_pure fun h => h.1 rfl) fun _ =>
        Draws.eats_pure fun h => h.2 rfl) ?_
    rintro peer _ ⟨result, rfl, hresult⟩
    by_cases hpeer : result = peer
    · exact .inl (hpeer ▸ hresult)
    · exact .inr ⟨nofun, fun heq => hpeer (Sum.inr.inj heq)⟩
  · exact (eats_setInfo pid _).bind (F := fun _ result => result ≠ peer)
      (fun _ => Draws.eats_pure fun h => h rfl) fun _ _ => .inr
  · intro peer result hresult
    by_cases hpeer : result = peer
    · exact .inl (hpeer ▸ hresult)
    · exact .inr hpeer

/-- A peer that is selected has been drawn. -/
theorem eats_selectPeer (pid : Int) :
    Draws.Eats (fun result => result.isSome = true)
      (selectPeer pid : Selector randMax Peer (Option Peer)) := by
  unfold selectPeer
  refine Draws.eats_get.bind (F := fun _ result => result.isSome = true) (fun s => ?_)
    fun _ _ => .inr
  dsimp only
  split
  · exact Draws.eats_undefined _
  · refine (eats_setInfo pid _).bind (F := fun _ result => result.isSome = true) (fun _ => ?_)
      fun _ _ => .inr
    refine .ite (fun _ => Draws.eats_pure nofun) fun _ => ?_
    exact .ite (fun _ => eats_takeCopied pid _) fun _ => eats_takeUnselected _ pid _

theorem eats_selectPeerOf (pids : List Int) :
    Draws.Eats (fun result => result.isSome = true)
      (selectPeerOf pids : Selector randMax Peer (Option Peer)) := by
  unfold selectPeerOf
  refine Draws.eats_get.bind (F := fun _ result => result.isSome = true) (fun s => ?_)
    fun _ _ => .inr
  dsimp only
  split
  · exact Draws.eats_undefined _
  · refine .ite (fun _ => Draws.eats_pure nofun) fun _ => ?_
    refine (Draws.eats_draw fun _ => True).bind (F := fun _ _ => False) (fun r => ?_)
      fun _ _ _ => .inl trivial
    split
    · exact Draws.eats_undefined _
    · exact (eats_selectPeer _).mono fun _ => False.elim

/-! ## What can be drawn -/

/-- Each peer of a distribution can be drawn. -/
def Reachable (randMax : Nat) (view : PerISPPeerDistribution Peer) : Prop :=
  ∀ (i : Nat) peers, view.listPIDPeers i = some peers → peers.length ≤ randMax + 1

theorem getRandomPeer_mem {view : PerISPPeerDistribution Peer} (hview : Reachable randMax view)
    (hpeers : view.listPIDPeers i = some peers) {peer : Peer} (hmem : peer ∈ peers)
    (s : Selecting Peer) :
    ∃ r : Fin (randMax + 1), ∀ rest,
      getRandomPeer view i s (r :: rest) = .returned (some peer) s rest := by
  have hlen := hview i peers hpeers
  obtain ⟨b, hb, rfl⟩ := Option.map_eq_some_iff.1 hpeers
  obtain ⟨k, hk, rfl⟩ := List.mem_map.1 hmem
  have hk := List.mem_range.1 hk
  have hlen : b.size ≤ randMax + 1 := by simpa [RandomAccessSet.elements] using hlen
  refine ⟨⟨k, by omega⟩, fun rest => ?_⟩
  have hnum : 0 < view.getNumPeers i := by
    rw [PerISPPeerDistribution.getNumPeers, hb]
    exact Int.natCast_pos.2 (Nat.zero_lt_of_lt hk)
  unfold getRandomPeer
  rw [if_pos hnum]
  change Drawn.returned (view.getRandomPeer i k) s rest = _
  rw [PerISPPeerDistribution.getRandomPeer, hb, Option.bind_some, if_neg (by omega),
    Nat.mod_eq_of_lt hk]

theorem takeCopied_mem (hlen : info.candidates.length ≤ randMax + 1) {peer : Peer}
    (hmem : peer ∈ info.candidates) :
    ∃ (r : Fin (randMax + 1)) (t : Selecting Peer), ∀ rest,
      takeCopied i info s (r :: rest) = .returned (some peer) t rest := by
  obtain ⟨k, hk, hpeer⟩ := List.mem_iff_getElem.1 hmem
  have hne : info.candidates ≠ [] := List.ne_nil_of_mem hmem
  refine ⟨⟨k, by omega⟩, { s with helper := s.helper.setInfo i { info with
    candidates := (info.candidates.set k (info.candidates.getLast hne)).dropLast
    numPeers := info.numPeers - 1 } }, fun rest => ?_⟩
  unfold takeCopied
  rw [if_neg (by simpa using hne), Draws.bind_apply]
  simp only [Draws.draw, Drawn.andThen]
  rw [Nat.mod_eq_of_lt hk, List.getElem?_eq_getElem hk, List.getLast?_eq_some_getLast hne, hpeer]
  rfl

theorem takeUnselected_mem {view : PerISPPeerDistribution Peer} (hview : Reachable randMax view)
    (hpeers : view.listPIDPeers i = some peers) {peer : Peer} (hmem : peer ∈ peers)
    (hnew : some peer ∉ info.selected) :
    ∃ (r : Fin (randMax + 1)) (t : Selecting Peer), ∀ rest,
      takeUnselected view i info s (r :: rest) = .returned (some peer) t rest := by
  obtain ⟨r, hr⟩ := getRandomPeer_mem hview hpeers hmem s
  refine ⟨r, { s with helper := s.helper.setInfo i { info with
    selected := some peer :: info.selected
    numPeers := info.numPeers - 1 } }, fun rest => ?_⟩
  unfold takeUnselected
  rw [Draws.bind_apply, Draws.loop, Draws.rounds, Draws.bind_apply, Draws.bind_apply, hr]
  simp only [Drawn.andThen]
  rw [if_neg hnew]
  rfl

/-- Each peer that is left of a PID can be selected. -/
theorem may_selectPeer (hr : s.helper.Ready n) (hi : i < n)
    (hview : Reachable randMax s.helper.ispPeers) {peer : Peer} (hmem : peer ∈ s.helper.left i) :
    ∃ (rs : List (Fin (randMax + 1))) (t : Selecting Peer), Selected n i s (some peer) t ∧
      ∀ rest, selectPeer i s (rs ++ rest) = .returned (some peer) t rest := by
  suffices hrun : ∃ (r : Fin (randMax + 1)) (t : Selecting Peer), ∀ rest,
      selectPeer i s (r :: rest) = .returned (some peer) t rest by
    obtain ⟨r, t, hrun⟩ := hrun
    have hspec := selectPeer_spec hr hi [r]
    rw [hrun] at hspec
    exact ⟨[r], t, hspec, hrun⟩
  obtain ⟨info, hinfo, hfits⟩ := hr.exists_info hi
  obtain ⟨hfits', hleft, hinvalid, hvalid⟩ :=
    PIDPeerSelectionHelper.chooseStrategy_spec hr hi hinfo
  cases hpeers : s.helper.ispPeers.listPIDPeers i with
  | none =>
    rw [PIDPeerSelectionHelper.left, hinfo, hpeers] at hmem
    cases hmem
  | some peers =>
    rw [PIDPeerSelectionHelper.Ready.left_eq hinfo hpeers] at hmem
    have hlen := (hfits.among peers hpeers).length_le.trans (hview i peers hpeers)
    rw [← hleft peers hpeers] at hmem hlen
    unfold selectPeer
    simp only [Draws.bind_apply, Draws.get, Drawn.andThen,
      PIDPeerSelectionHelper.info_natCast, hinfo, setInfo, Draws.modify]
    generalize hchoice : s.helper.chooseStrategy i info = choice at *
    obtain ⟨chosen, info'⟩ := choice
    cases chosen with
    | false =>
      rw [hinvalid rfl] at hpeers
      cases hpeers
    | true =>
      simp only [Bool.not_true, Bool.false_eq_true, if_false]
      split
      · next hcopy =>
        simp only [PIDInfo.left, hcopy] at hmem hlen
        exact takeCopied_mem hlen hmem
      · next hcopy =>
        have hnocopy : info'.strategy = .nocopy := by
          cases hs : info'.strategy with
          | unknown => exact absurd hs (hvalid rfl).2
          | copy => exact absurd hs hcopy
          | nocopy => rfl
        simp only [PIDInfo.left, hnocopy] at hmem
        obtain ⟨hmem, hnew⟩ := List.mem_filter.1 hmem
        exact takeUnselected_mem hview hpeers hmem (by simpa using hnew)

end Selector

end Alto.Selection
