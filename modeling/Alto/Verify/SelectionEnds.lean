import Alto.Verify.SelectionCourse

/-!
# Selections that come to their end

Each stage of a selection can return: there are results of `rand` that lead it to its number of peers,
or to a PID that has run dry. It cannot where a PID with the strategy `ST_NOCOPY` runs dry, which the
loop for the home PID or `fillPeers` would not leave.
-/

namespace Alto.Selection

open Common Lib App Guidance

variable {randMax : Nat} {Peer ISP Mgr : Type} [LinearOrder Peer] [LinearOrder ISP]

namespace Selector

variable {n i : Nat} {is : List Nat} {s t : Selecting Peer} {out : List Peer}

/-! ## A PID that has run dry -/

/-- The peers of the PID are copied when the first one is drawn. -/
def Copies (h : PIDPeerSelectionHelper Peer) (i : Nat) : Prop :=
  ∀ peers, h.ispPeers.listPIDPeers i = some peers →
    toUnsigned peers.length ≤ toUnsigned (4 * h.totalPeers)

/-- From a PID that has run dry nothing is selected. -/
theorem selectPeer_dry (hr : s.helper.Ready n) (hi : i < n) (hdry : s.helper.left i = [])
    (hcopies : Copies s.helper i) :
    ∃ t, ∀ rs : List (Fin (randMax + 1)), selectPeer i s rs = .returned none t rs := by
  obtain ⟨info, hinfo, hfits⟩ := hr.exists_info hi
  obtain ⟨hfits', hleft, hinvalid, hvalid⟩ :=
    PIDPeerSelectionHelper.chooseStrategy_spec hr hi hinfo
  refine ⟨{ s with helper := s.helper.setInfo i (s.helper.chooseStrategy i info).2 }, fun rs => ?_⟩
  unfold selectPeer
  simp only [Draws.bind_apply, Draws.get, Drawn.andThen,
    PIDPeerSelectionHelper.info_natCast, hinfo, setInfo, Draws.modify]
  generalize s.helper.chooseStrategy i info = choice at *
  obtain ⟨chosen, info'⟩ := choice
  cases chosen with
  | false => rfl
  | true =>
    obtain ⟨hne, hknown⟩ := hvalid rfl
    obtain ⟨peers, hpeers⟩ := Option.ne_none_iff_exists'.1 hne
    have hcopy : info'.strategy = .copy := by
      cases hs : info'.strategy with
      | unknown => exact absurd hs hknown
      | copy => rfl
      | nocopy => exact absurd (hfits'.large hs peers hpeers) (not_lt.2 (hcopies peers hpeers))
    have hnil : info'.candidates = [] := by
      rw [PIDPeerSelectionHelper.Ready.left_eq hinfo hpeers, ← hleft peers hpeers, PIDInfo.left,
        hcopy] at hdry
      exact hdry
    simp only [Bool.not_true, Bool.false_eq_true, if_false, if_pos hcopy]
    unfold takeCopied
    rw [hnil]
    rfl

/-! ## The stage for the home PID -/

/-- A round that goes on has drawn. -/
theorem advances_homeRound (peer : Peer) (homePid : Int) (number : Nat) :
    Draws.Advances (homeRound peer homePid number : Nat → Selector randMax Peer (Nat ⊕ Unit)) := by
  intro l
  unfold homeRound
  refine .ite (fun _ => ?_) fun _ => Draws.eats_pure nofun
  refine (eats_selectPeer homePid).bind
    (F := fun result (x : Nat ⊕ Unit) => result = none ∧ x.isLeft = true) (fun result => ?_) ?_
  · cases result with
    | none => exact Draws.eats_pure fun h => nomatch h.2
    | some candPeer =>
      refine .ite (fun _ => Draws.eats_pure fun h => nomatch h.1) fun _ => ?_
      exact (Draws.eats_modify _).bind (F := fun _ _ => False) (fun _ => Draws.eats_pure id)
        fun _ _ h => nomatch h.1
  · intro result x hx
    cases result with
    | none => exact .inr ⟨rfl, hx⟩
    | some candPeer => exact .inl rfl

section Home

variable {peer candPeer : Peer} {home number l : Nat}

/-- A round in which another peer is drawn. -/
theorem homeRound_push {rs rest : List (Fin (randMax + 1))} (hlt : l < number)
    (hrun : selectPeer home s rs = .returned (some candPeer) t rest) (hcand : candPeer ≠ peer) :
    homeRound peer home number l s rs =
      .returned (.inl (l + 1)) { t with outPeers := t.outPeers ++ [candPeer] } rest := by
  unfold homeRound
  rw [if_pos hlt, Draws.bind_apply, hrun]
  simp only [Drawn.andThen, if_neg hcand, push, Draws.bind_apply, Draws.modify, Draws.pure_apply]

/-- A round in which the requesting peer is drawn. -/
theorem homeRound_skip {rs rest : List (Fin (randMax + 1))} (hlt : l < number)
    (hrun : selectPeer home s rs = .returned (some peer) t rest) :
    homeRound peer home number l s rs = .returned (.inl l) t rest := by
  unfold homeRound
  rw [if_pos hlt, Draws.bind_apply, hrun]
  simp only [Drawn.andThen, if_true, Draws.pure_apply]

/-- A round in which nothing is drawn. -/
theorem homeRound_none {rs rest : List (Fin (randMax + 1))} (hlt : l < number)
    (hrun : selectPeer home s rs = .returned none t rest) :
    homeRound peer home number l s rs = .returned (.inr ()) t rest := by
  unfold homeRound
  rw [if_pos hlt, Draws.bind_apply, hrun]
  rfl

/-- The home PID, without the requesting peer, has as many peers as are to be selected, or they are
copied. -/
def HomeEnds (peer : Peer) (home number : Nat) (h : PIDPeerSelectionHelper Peer) : Prop :=
  number ≤ ((h.left home).filter fun p => p ≠ peer).length ∨ Copies h home

/-- In the stage for the home PID the requesting peer is not drawn as long as there is another one. -/
structure Sparing (n : Nat) (peer : Peer) (home number : Nat) (s : Selecting Peer) (out : List Peer)
    (t : Selecting Peer) : Prop where
  drew : DrewHome n peer home number s out t
  spared : peer ∈ s.helper.left home →
    number ≤ ((s.helper.left home).filter fun p => p ≠ peer).length → peer ∈ t.helper.left home

/-- The stage for the home PID can return, and need not draw the requesting peer if there are enough
others. -/
theorem may_selectHome (hr : s.helper.Ready n) (hhome : home < n)
    (hview : Reachable randMax s.helper.ispPeers) (hends : HomeEnds peer home number s.helper) :
    Draws.May (fun t => t = s) (selectHome peer home number : Selector randMax Peer Unit)
      (fun _ t => ∃ out, Sparing n peer home number s out t) := by
  have hloop := Draws.may_loop (R := Fin (randMax + 1)) (advances_homeRound peer home number)
    (J := fun l t => ∃ out, Sparing n peer home number s out t ∧ out.length = l)
    (Q := fun _ t => ∃ out, Sparing n peer home number s out t)
    (fun _ t => (t.helper.left home).length) ?_ 0
  · refine hloop.imp ?_ fun _ _ => id
    rintro _ rfl
    exact ⟨[], ⟨.refl hr, fun hmem _ => hmem⟩, rfl⟩
  rintro l m t ⟨⟨out, hs, rfl⟩, rfl⟩
  have hadd := hs.drew.length_add
  by_cases hlt : out.length < number
  swap
  · refine ⟨[], .inr (), t, ⟨out, hs⟩, fun rest => ?_⟩
    unfold homeRound
    rw [if_neg hlt]
    rfl
  have hview' : Reachable randMax t.helper.ispPeers := by
    rw [hs.drew.ispPeers]
    exact hview
  cases hrest : (t.helper.left home).filter fun p => p ≠ peer with
  | cons candPeer others =>
    -- another peer is drawn
    have hmem : candPeer ∈ (t.helper.left home).filter fun p => p ≠ peer := by
      rw [hrest]
      exact List.mem_cons_self
    obtain ⟨hmem, hcand⟩ := List.mem_filter.1 hmem
    have hcand : candPeer ≠ peer := of_decide_eq_true hcand
    obtain ⟨rs, t', hsel, hrun⟩ := may_selectPeer hs.drew.ready hhome hview' hmem
    have hperm := hsel.2.taken candPeer rfl
    refine ⟨rs, .inl (out.length + 1), { t' with outPeers := t'.outPeers ++ [candPeer] },
      ⟨⟨out ++ [candPeer], ⟨hs.drew.push hlt hsel hcand, ?_⟩, ?_⟩, ?_⟩,
      fun rest => homeRound_push hlt (hrun rest) hcand⟩
    · intro hself hnumber
      have hleft := hperm.symm.subset (hs.spared hself hnumber)
      exact (List.mem_cons.1 hleft).resolve_left (Ne.symm hcand)
    · rw [List.length_append, List.length_singleton]
    · have hlen := hperm.length_eq
      rw [List.length_cons] at hlen
      change (t'.helper.left home).length < _
      omega
  | nil =>
    rw [hrest, List.length_nil] at hadd
    cases hleft : t.helper.left home with
    | cons candPeer others =>
      -- the requesting peer is the only one
      have hcand : candPeer = peer := by
        have hmem := List.filter_eq_nil_iff.1 hrest candPeer (hleft ▸ List.mem_cons_self)
        simpa using hmem
      have hmem : peer ∈ t.helper.left home := by
        rw [hleft, hcand]
        exact List.mem_cons_self
      obtain ⟨rs, t', hsel, hrun⟩ := may_selectPeer hs.drew.ready hhome hview' hmem
      refine ⟨rs, .inl out.length, t', ⟨⟨out, ⟨hs.drew.skip hsel, fun _ hnumber => ?_⟩, rfl⟩, ?_⟩,
        fun rest => homeRound_skip hlt (hrun rest)⟩
      · omega
      · have hlen := (hsel.2.taken peer rfl).length_eq
        rw [List.length_cons] at hlen
        rw [← hleft]
        omega
    | nil =>
      -- nothing is left
      have hcopies : Copies t.helper home := by
        unfold Copies
        rw [hs.drew.ispPeers, hs.drew.totalPeers]
        exact hends.resolve_left (by omega)
      obtain ⟨t', hrun⟩ := selectPeer_dry hs.drew.ready hhome hleft hcopies
      have hsel : Selected n home t none t' := by
        have hspec := selectPeer_spec hs.drew.ready hhome ([] : List (Fin (randMax + 1)))
        rw [hrun] at hspec
        exact hspec
      exact ⟨[], .inr (), t', ⟨out, hs.drew.wait hsel.waits, fun _ hnumber => by omega⟩,
        fun rest => homeRound_none hlt (hrun rest)⟩

end Home

/-! ## The stages for some PIDs -/

/-- A round that goes on has drawn. -/
theorem advances_fromRound (pids : List Int) (number : Nat) :
    Draws.Advances (fromRound pids number : Nat → Selector randMax Peer (Nat ⊕ Unit)) := by
  intro l
  unfold fromRound
  refine .ite (fun _ => ?_) fun _ => Draws.eats_pure nofun
  refine (eats_selectPeerOf pids).bind
    (F := fun result (x : Nat ⊕ Unit) => result = none ∧ x.isLeft = true) (fun result => ?_) ?_
  · cases result with
    | none => exact Draws.eats_pure fun h => nomatch h.2
    | some candPeer =>
      exact (Draws.eats_modify _).bind (F := fun _ _ => False) (fun _ => Draws.eats_pure id)
        fun _ _ h => nomatch h.1
  · intro result x hx
    cases result with
    | none => exact .inr ⟨rfl, hx⟩
    | some candPeer => exact .inl rfl

/-- Without stock nothing is drawn. -/
theorem selectPeerOf_empty (hr : s.helper.Ready n) (his : ∀ i ∈ is, i < n)
    (hstock : stock s.helper is ≤ 0) (rs : List (Fin (randMax + 1))) :
    selectPeerOf (pidList is) s rs = .returned none s rs := by
  obtain ⟨infos, hinfos, hall⟩ := exists_infos hr his
  unfold selectPeerOf
  simp only [Draws.bind_apply, Draws.get, Drawn.andThen, hinfos]
  rw [counts_eq hr his hall, if_pos hstock]
  rfl

section Coin

variable {infos : List (PIDInfo Peer)}

/-- The coin falls on a PID, from which a peer is then selected. -/
theorem selectPeerOf_draw (hr : s.helper.Ready n) (his : ∀ i ∈ is, i < n)
    (hinfos : (pidList is).mapM s.helper.entry = some infos)
    (hall : List.Forall₂ (fun i info => s.helper.pidinfo[i]? = some info) is infos)
    (hstock : 0 < stock s.helper is) {r : Fin (randMax + 1)}
    (hi : is[pick ((r : Nat) % stock s.helper is) (infos.map (·.numPeers))]? = some i)
    (rs : List (Fin (randMax + 1))) :
    selectPeerOf (pidList is) s (r :: rs) = selectPeer i s rs := by
  unfold selectPeerOf
  simp only [Draws.bind_apply, Draws.get, Drawn.andThen, hinfos]
  rw [counts_eq hr his hall, if_neg (not_le.2 hstock)]
  simp only [Draws.bind_apply, Draws.draw, Drawn.andThen]
  rw [pidList, List.getElem?_map, hi]
  rfl

/-- As long as there is stock a peer can be selected. -/
theorem may_selectPeerOf (hr : s.helper.Ready n) (his : ∀ i ∈ is, i < n)
    (hview : Reachable randMax s.helper.ispPeers) (hstock : 0 < stock s.helper is) :
    ∃ (rs : List (Fin (randMax + 1))) (i : Nat) (peer : Peer) (t : Selecting Peer), i ∈ is ∧
      Selected n i s (some peer) t ∧
      ∀ rest, selectPeerOf (pidList is) s (rs ++ rest) = .returned (some peer) t rest := by
  obtain ⟨infos, hinfos, hall⟩ := exists_infos hr his
  have hsum : (infos.map (·.numPeers)).sum = stock s.helper is := counts_eq hr his hall
  obtain ⟨count, hcount, hpos⟩ := pick_spec
    (Int.emod_nonneg ((0 : Fin (randMax + 1)) : Nat) (Int.ne_of_gt hstock))
    ((Int.emod_lt_of_pos ((0 : Fin (randMax + 1)) : Nat) hstock).trans_eq hsum.symm)
  rw [List.getElem?_map, Option.map_eq_some_iff] at hcount
  obtain ⟨info, hinfo, rfl⟩ := hcount
  obtain ⟨i, hi, hentry⟩ := getElem?_of_forall₂ hall hinfo
  have hmem := List.mem_of_getElem? hi
  have hleft : s.helper.left i ≠ [] := by
    intro hnil
    rw [hr.numPeers_eq (his i hmem) hentry, hnil] at hpos
    split at hpos <;> simp at hpos
  obtain ⟨peer, hpeer⟩ := List.exists_mem_of_ne_nil _ hleft
  obtain ⟨rs, t, hsel, hselect⟩ := may_selectPeer hr (his i hmem) hview hpeer
  refine ⟨0 :: rs, i, peer, t, hmem, hsel, fun rest => ?_⟩
  rw [List.cons_append, selectPeerOf_draw hr his hinfos hall hstock hi]
  exact hselect rest

/-- The coin can fall on each entry that is positive, if none is negative. -/
theorem exists_pick {counts : List Int} (hnonneg : ∀ count ∈ counts, 0 ≤ count) {j : Nat} {count : Int}
    (hj : counts[j]? = some count) (hpos : 0 < count) :
    ∃ coin, 0 ≤ coin ∧ coin < counts.sum ∧ pick coin counts = j := by
  induction counts generalizing j with
  | nil => cases hj
  | cons first counts ih =>
    obtain ⟨hfirst, hrest⟩ := List.forall_mem_cons.1 hnonneg
    have hsum : 0 ≤ counts.sum := List.sum_nonneg hrest
    rw [List.sum_cons]
    cases j with
    | zero =>
      obtain rfl := Option.some.inj hj
      refine ⟨0, le_refl 0, by omega, ?_⟩
      cases counts with
      | nil => rfl
      | cons next counts => rw [pick, if_pos (by omega)]
    | succ j =>
      rw [List.getElem?_cons_succ] at hj
      obtain ⟨coin, hcoin, hlt, hpick⟩ := ih hrest hj
      refine ⟨first + coin, by omega, by omega, ?_⟩
      cases counts with
      | nil => cases hj
      | cons next counts =>
        rw [pick, if_neg (by omega), show first + coin - first = coin by omega, hpick]

/-- Where all PIDs are valid the stock is the number of peers that are left. -/
theorem stock_eq_length {h : PIDPeerSelectionHelper Peer}
    (hvalid : ∀ i ∈ is, h.ispPeers.listPIDPeers i ≠ none) : stock h is = (h.pool is).length := by
  unfold stock PIDPeerSelectionHelper.pool
  induction is with
  | nil => rfl
  | cons i is ih =>
    rw [List.map_cons, List.sum_cons, List.flatMap_cons, List.length_append,
      ih fun j hj => hvalid j (List.mem_cons_of_mem _ hj), if_neg (hvalid i List.mem_cons_self)]
    push_cast
    rfl

/-- Each peer that is left of some PIDs can be selected, if the coin can reach all of them. -/
theorem may_selectPeerOf_peer (hr : s.helper.Ready n) (his : ∀ i ∈ is, i < n)
    (hview : Reachable randMax s.helper.ispPeers)
    (hvalid : ∀ i ∈ is, s.helper.ispPeers.listPIDPeers i ≠ none)
    (hfew : (s.helper.pool is).length ≤ randMax + 1) {peer : Peer} (hi : i ∈ is)
    (hpeer : peer ∈ s.helper.left i) :
    ∃ (rs : List (Fin (randMax + 1))) (t : Selecting Peer), Selected n i s (some peer) t ∧
      ∀ rest, selectPeerOf (pidList is) s (rs ++ rest) = .returned (some peer) t rest := by
  obtain ⟨infos, hinfos, hall⟩ := exists_infos hr his
  have hsum : (infos.map (·.numPeers)).sum = stock s.helper is := counts_eq hr his hall
  have hstock := stock_eq_length hvalid
  obtain ⟨j, hj⟩ := List.mem_iff_getElem?.1 hi
  obtain ⟨info, hinfo, hentry⟩ := getElem?_of_forall₂ hall.flip hj
  have hcounts : ∀ count ∈ infos.map (·.numPeers), 0 ≤ count := by
    intro count hcount
    obtain ⟨info', hinfo', rfl⟩ := List.mem_map.1 hcount
    obtain ⟨k, hk⟩ := List.mem_iff_getElem?.1 hinfo'
    obtain ⟨i', hi', hentry'⟩ := getElem?_of_forall₂ hall hk
    have hmem := List.mem_of_getElem? hi'
    rw [hr.numPeers_eq (his i' hmem) hentry', if_neg (hvalid i' hmem)]
    exact Int.natCast_nonneg _
  have hpos : 0 < info.numPeers := by
    rw [hr.numPeers_eq (his i hi) hentry, if_neg (hvalid i hi)]
    exact Int.natCast_pos.2 (List.length_pos_of_mem hpeer)
  obtain ⟨coin, hcoin, hlt, hpick⟩ := exists_pick hcounts (j := j) (by
    rw [List.getElem?_map, hinfo, Option.map_some]) hpos
  obtain ⟨k, rfl⟩ := Int.eq_ofNat_of_zero_le hcoin
  have hmod : ((k : Nat) : Int) % stock s.helper is = k := Int.emod_eq_of_lt hcoin (hsum ▸ hlt)
  obtain ⟨rs, t, hsel, hselect⟩ := may_selectPeer hr (his i hi) hview hpeer
  refine ⟨⟨k, by omega⟩ :: rs, t, hsel, fun rest => ?_⟩
  rw [List.cons_append, selectPeerOf_draw hr his hinfos hall (by omega) (i := i) (by
    rw [hmod, hpick, hj])]
  exact hselect rest

end Coin

theorem fromRound_push {pids : List Int} {number l : Nat} {peer : Peer}
    {rs rest : List (Fin (randMax + 1))} (hlt : l < number)
    (hrun : selectPeerOf pids s rs = .returned (some peer) t rest) :
    fromRound pids number l s rs =
      .returned (.inl (l + 1)) { t with outPeers := t.outPeers ++ [peer] } rest := by
  unfold fromRound
  rw [if_pos hlt, Draws.bind_apply, hrun]
  simp only [Drawn.andThen, push, Draws.bind_apply, Draws.modify, Draws.pure_apply]

/-- The loop of such a stage can be left. -/
theorem may_fromLoop (out : List Peer) (hview : Reachable randMax s.helper.ispPeers)
    (his : ∀ i ∈ is, i < n) (hnodup : is.Nodup) (number l : Nat) :
    Draws.May (fun t => Drew n is s out [] t)
      (Draws.loop (fromRound (pidList is) number) l : Selector randMax Peer Unit)
      (fun _ t => ∃ more, Drew n is s (out ++ more) [] t) := by
  have hloop := Draws.may_loop (R := Fin (randMax + 1)) (advances_fromRound (pidList is) number)
    (J := fun _ t => ∃ more, Drew n is s (out ++ more) [] t)
    (Q := fun _ t => ∃ more, Drew n is s (out ++ more) [] t) (fun l _ => number - l) ?_ l
  · exact hloop.imp (fun t ht => ⟨[], by rwa [List.append_nil]⟩) fun _ _ => id
  rintro l m t ⟨⟨more, hd⟩, rfl⟩
  by_cases hlt : l < number
  swap
  · refine ⟨[], .inr (), t, ⟨more, hd⟩, fun rest => ?_⟩
    unfold fromRound
    rw [if_neg hlt]
    rfl
  by_cases hstock : 0 < stock t.helper is
  · obtain ⟨rs, i, peer, t', hi, hsel, hrun⟩ :=
      may_selectPeerOf hd.ready his (hd.ispPeers ▸ hview) hstock
    refine ⟨rs, .inl (l + 1), { t' with outPeers := t'.outPeers ++ [peer] },
      ⟨⟨more ++ [peer], ?_⟩, ?_⟩, fun rest => fromRound_push hlt (hrun rest)⟩
    · rw [← List.append_assoc]
      exact hd.push hsel hi hnodup
    · omega
  · refine ⟨[], .inr (), t, ⟨more, hd⟩, fun rest => ?_⟩
    unfold fromRound
    rw [if_pos hlt, Draws.bind_apply, selectPeerOf_empty hd.ready his (not_lt.1 hstock)]
    rfl

/-- The stage for some PIDs can return. -/
theorem may_selectFrom (hr : s.helper.Ready n) (his : ∀ i ∈ is, i < n) (hnodup : is.Nodup)
    (hview : Reachable randMax s.helper.ispPeers) (number : Nat) :
    Draws.May (fun t => t = s) (selectFrom (pidList is) number : Selector randMax Peer Unit)
      (fun _ _ => True) := by
  refine (may_fromLoop [] hview his hnodup number 0).imp ?_ fun _ _ _ => trivial
  rintro _ rfl
  exact .refl hr

/-- Each peer that is left of the PIDs can be the first one. -/
theorem may_selectFrom_peer (hr : s.helper.Ready n) (his : ∀ i ∈ is, i < n) (hnodup : is.Nodup)
    (hview : Reachable randMax s.helper.ispPeers)
    (hvalid : ∀ i ∈ is, s.helper.ispPeers.listPIDPeers i ≠ none)
    (hfew : (s.helper.pool is).length ≤ randMax + 1) {number : Nat} (hpos : 0 < number) {peer : Peer}
    (hi : i ∈ is) (hpeer : peer ∈ s.helper.left i) :
    Draws.May (fun t => t = s) (selectFrom (pidList is) number : Selector randMax Peer Unit)
      (fun _ t => ∃ more, Drew n is s (peer :: more) [] t) := by
  rintro s rfl
  obtain ⟨rs, t, hsel, hrun⟩ := may_selectPeerOf_peer hr his hview hvalid hfew hi hpeer
  have hfirst := (Drew.refl hr).push hsel hi hnodup
  obtain ⟨rs', u, t', hmore, hrun'⟩ := may_fromLoop [peer] hview his hnodup number 1 _ hfirst
  refine ⟨rs ++ rs', u, t', hmore, fun rest => ?_⟩
  unfold selectFrom
  rw [Draws.loop_eq (advances_fromRound _ _), Draws.bind_apply, List.append_assoc,
    fromRound_push hpos (hrun _)]
  exact hrun' rest

/-! ## Filling by weights -/

section Filling

variable {fp : Rounding} {peercount : List Nat} {weights : List ℚ} {maxPeers : Nat}

/-- At the beginning of its range the wheel stops at the first entry with a positive weight. -/
theorem wheel_zero {weights : List ℚ} (hnonneg : ∀ w ∈ weights, 0 ≤ w)
    (hpos : ∃ w ∈ weights, 0 < w) : ∃ w, weights[wheel fp 0 weights]? = some w ∧ 0 < w := by
  induction weights with
  | nil =>
    obtain ⟨w, hw, -⟩ := hpos
    cases hw
  | cons w weights ih =>
    by_cases hw : 0 < w
    · exact ⟨w, by rw [wheel_first hw]; rfl, hw⟩
    · have hzero : w = 0 := le_antisymm (not_lt.1 hw) (hnonneg w List.mem_cons_self)
      have hpos : ∃ v ∈ weights, 0 < v := by
        obtain ⟨v, hv, hpos⟩ := hpos
        rcases List.mem_cons.1 hv with rfl | hv
        · exact absurd hpos hw
        · exact ⟨v, hv, hpos⟩
      obtain ⟨v, hv, hvpos⟩ := ih (fun x hx => hnonneg x (List.mem_cons_of_mem _ hx)) hpos
      refine ⟨v, ?_, hvpos⟩
      cases weights with
      | nil => cases hv
      | cons w' weights =>
        rw [wheel, if_pos hzero.le, hzero, Rounding.sub, sub_zero, Rounding.round_zero,
          List.getElem?_cons_succ]
        exact hv

/-- The least result of `rand` falls on an entry with peers. -/
theorem AtRound.wheel_zero (h : AtRound fp weights n is maxPeers s out t) (randMax : Nat) :
    ∃ i j, wheel fp (point fp (0 : Fin (randMax + 1)) t.fill.totalWeight) t.fill.weights = j ∧
      is[j]? = some i ∧ t.helper.left i ≠ [] := by
  have hpos : ∃ w ∈ t.fill.weights, 0 < w := by
    obtain ⟨count, hcount, hpos⟩ : ∃ count ∈ t.fill.peercount, 0 < count := by
      by_contra hnone
      have hzero : t.fill.peercount.sum = 0 := List.sum_eq_zero fun c hc =>
        Nat.eq_zero_of_not_pos fun hpos => hnone ⟨c, hc, hpos⟩
      have hsum := h.some_left
      omega
    rw [h.counted.peercount] at hcount
    obtain ⟨i, hi, rfl⟩ := List.mem_map.1 hcount
    obtain ⟨j, hj⟩ := List.mem_iff_getElem?.1 hi
    have hjlt : j < t.fill.weights.length := by
      rw [h.counted.length]
      exact (List.getElem?_eq_some_iff.1 hj).1
    have hw := List.getElem?_eq_getElem hjlt
    exact ⟨_, List.getElem_mem hjlt,
      (h.counted.weight j i _ hj hw).2 (List.length_pos_iff.1 hpos)⟩
  obtain ⟨w, hw, hpos⟩ : ∃ w, t.fill.weights[wheel fp 0 t.fill.weights]? = some w ∧ 0 < w :=
    Selector.wheel_zero h.counted.nonneg hpos
  have hlt : wheel fp 0 t.fill.weights < is.length := by
    rw [← h.counted.length]
    exact (List.getElem?_eq_some_iff.1 hw).1
  have hi := List.getElem?_eq_getElem hlt
  have hzero : point fp (0 : Fin (randMax + 1)) t.fill.totalWeight = 0 := by
    simp [point, Rounding.mul]
  exact ⟨_, _, congrArg (wheel fp · _) hzero, hi, (h.counted.weight _ _ w hi hw).1 hpos⟩

/-- A round can draw from a PID that has peers. -/
theorem AtRound.may_draw (h : AtRound fp weights n is maxPeers s out t) (hf : Filling n s is peercount weights)
    (hview : Reachable randMax s.helper.ispPeers) {i j : Nat} (hi : is[j]? = some i)
    (hleft : t.helper.left i ≠ []) : ∃ (rs : List (Fin (randMax + 1))) (peer : Peer)
      (t₂ : Selecting Peer), Selected n i (mark t j) (some peer) t₂ ∧
      ∀ rest, selectPeer i (mark t j) (rs ++ rest) = .returned (some peer) t₂ rest := by
  have hview' : Reachable randMax (mark t j).helper.ispPeers := by
    change Reachable randMax t.helper.ispPeers
    rw [h.counted.drew.ispPeers]
    exact hview
  obtain ⟨peer, hpeer⟩ := List.exists_mem_of_ne_nil _ hleft
  obtain ⟨rs, t₂, hsel, hrun⟩ := may_selectPeer (s := mark t j) h.counted.drew.ready
    (hf.valid i (List.mem_of_getElem? hi)) hview' hpeer
  exact ⟨rs, peer, t₂, hsel, hrun⟩

/-- The loop of `fillPeers` can be left. -/
theorem may_fillLoop (hf : Filling n s is peercount weights)
    (hview : Reachable randMax s.helper.ispPeers) (hsmall : peercount.sum < 2 ^ 32) :
    Draws.May (fun t => ∃ out, AtRound fp weights n is maxPeers s out t)
      (Draws.loop (fun () =>
        (fillRound fp (pidList is) maxPeers : Selector randMax Peer (Unit ⊕ Unit))) ())
      (fun _ _ => True) := by
  have hpool : (s.helper.pool is).length < 2 ^ 32 := hf.sum_eq ▸ hsmall
  refine Draws.may_loop (advances_fillRound _ _ _)
    (J := fun _ t => ∃ out, AtRound fp weights n is maxPeers s out t) (fun _ t => t.fill.peercount.sum) ?_ ()
  rintro _ m t ⟨⟨out, h⟩, rfl⟩
  obtain ⟨i, j, hwheel, hi, hleft⟩ := h.wheel_zero randMax
  obtain ⟨rs, peer, t₂, hsel, hrun⟩ := h.may_draw hf hview hi hleft
  by_cases hopen : (filled fp t₂ peer j).outPeers.length < maxPeers ∧
      0 < (filled fp t₂ peer j).fill.totalPeercount
  · have hnext := h.next hpool hsel hi hf.nodup hopen
    refine ⟨0 :: rs, .inl (), filled fp t₂ peer j, ⟨⟨_, hnext⟩, ?_⟩, fun rest => ?_⟩
    · have hsum := h.counted.sum
      have hsum' := hnext.counted.sum
      rw [List.length_append, List.length_singleton] at hsum'
      omega
    · rw [List.cons_append, fillRound_run maxPeers hwheel hi (hrun rest), if_pos hopen]
  · refine ⟨0 :: rs, .inr (), filled fp t₂ peer j, trivial, fun rest => ?_⟩
    rw [List.cons_append, fillRound_run maxPeers hwheel hi (hrun rest), if_neg hopen]

/-- `fillPeers` for PIDs that passed the filter can return. -/
theorem may_fillFrom {view : PerISPPeerDistribution Peer} (hf : Filling n s is
      (fillCounts view is) (is.map fun i => (weights[i]?).getD 0))
    (hview : Reachable randMax s.helper.ispPeers) (hsmall : (fillCounts view is).sum < 2 ^ 32) :
    Draws.May (fun t => t = s)
      (SelectionContext.fillFrom fp view weights is maxPeers : Selector randMax Peer Unit)
      (fun _ _ => True) := by
  rintro s rfl
  rcases eq_or_ne is [] with rfl | hne
  · exact ⟨[], (), _, trivial, fun _ => rfl⟩
  obtain ⟨rs, u, t, -, hrun⟩ :=
    may_fillLoop hf hview hsmall (opened fp s (fillCounts view is) _) ⟨[], hf.atRound hne hsmall⟩
  refine ⟨rs, u, t, trivial, fun rest => ?_⟩
  rw [← hrun rest, ← fillPeers_eq hf hne maxPeers s.fill]
  rfl

end Filling

end Selector

end Alto.Selection
