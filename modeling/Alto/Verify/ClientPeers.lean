import Mathlib
import Alto.App.ClientSelection
import Alto.Verify.SelectPeer

/-!
# The peers that a client selects

The loops take peers out of disjoint groups of the candidates, and their limits add up to the number
that is asked for. But too few candidates are copied, and then the loops run over the same candidates
again. The limits are computed with rounded results, and add up for every rounding.
-/

namespace Alto.App.P4PClientPeerSelectionLocation

open Guidance Lib Selection

variable {randMax : Nat} {Peer : Type}

/-! ## The loops -/

section Loops

variable {peers : List Peer} {number : Nat}

/-- The last peer of a group takes the place of the one that is taken. -/
theorem takeRound_draw {selected : Nat} (hlt : selected < number) (hne : peers ≠ [])
    (r : Fin (randMax + 1)) (outPeers : List Peer) :
    ∃ peer rest, (peer :: rest).Perm peers ∧ ∀ rs,
      takeRound number (peers, selected) outPeers (r :: rs) =
        .returned (.inl (rest, selected + 1)) (outPeers ++ [peer]) rs := by
  have hidx : (r : Nat) % peers.length < peers.length := Nat.mod_lt _ (List.length_pos_iff.2 hne)
  have hget := List.getElem?_eq_getElem hidx
  have hback := List.getLast?_eq_some_getLast hne
  refine ⟨_, _, perm_swap_pop hget hback, fun rs => ?_⟩
  have hempty : peers.isEmpty = false := by simpa using hne
  rw [takeRound]
  simp only [if_pos hlt, hempty, Bool.false_eq_true, if_false, Draws.bind_apply, Draws.draw,
    Drawn.andThen, hget, hback]
  rfl

/-- A loop takes as many peers as it can out of its group. -/
theorem takePeers_spec (peers : List Peer) (number : Nat) (outPeers : List Peer)
    (rs : List (Fin (randMax + 1))) :
    (takePeers peers number outPeers rs).Holds (fun _ outPeers' => ∃ taken,
        outPeers' = outPeers ++ taken ∧ taken.Subperm peers ∧
        taken.length = min number peers.length) (fun _ => False) (fun _ => True) := by
  refine Draws.triple_loop (J := fun l t => ∃ taken,
    t = outPeers ++ taken ∧ (taken ++ l.1).Perm peers ∧ l.2 = taken.length ∧ l.2 ≤ number)
    ?_ (fun _ _ _ => trivial) (peers, 0) outPeers rs ⟨[], by simp⟩
  rintro ⟨left, selected⟩ _ rs ⟨taken, rfl, hperm, hselected, hle⟩
  have hlength := hperm.length_eq
  rw [List.length_append] at hlength
  have hsub : taken.Subperm peers := (List.sublist_append_left taken left).subperm.trans hperm.subperm
  dsimp only at hperm hselected hle hlength
  by_cases hlt : selected < number
  · by_cases hne : left = []
    · subst hne
      rw [takeRound, if_pos hlt, if_pos List.isEmpty_nil]
      refine ⟨taken, rfl, hsub, ?_⟩
      rw [List.length_nil] at hlength
      omega
    · cases rs with
      | nil =>
        rw [takeRound, if_pos hlt, if_neg (by simpa using hne)]
        exact trivial
      | cons r rs =>
        obtain ⟨peer, rest, hrest, hrun⟩ := takeRound_draw hlt hne r (outPeers ++ taken)
        rw [hrun]
        refine ⟨taken ++ [peer], (List.append_assoc ..), ?_, ?_, hlt⟩
        · rw [List.append_assoc]
          exact (hrest.append_left taken).trans hperm
        · rw [List.length_append, hselected, List.length_singleton]
  · rw [takeRound, if_neg hlt]
    exact ⟨taken, rfl, hsub, by omega⟩

theorem advances_takeRound (number : Nat) :
    Draws.Advances (takeRound number : _ → ClientSelector randMax Peer _) := by
  rintro ⟨peers, selected⟩
  rw [takeRound]
  refine .ite (fun _ => .ite (fun _ => Draws.eats_pure nofun) fun _ => ?_)
    fun _ => Draws.eats_pure nofun
  refine (Draws.eats_draw fun _ => True).bind (F := fun _ _ => False) (fun r => ?_)
    fun _ _ _ => .inl trivial
  dsimp only
  split
  · exact (Draws.eats_modify _).bind (F := fun _ _ => False) (fun _ => Draws.eats_pure id)
      fun _ _ => False.elim
  · exact Draws.eats_undefined _

/-- A loop that draws enough comes to its end. -/
theorem may_takePeers (peers : List Peer) (number : Nat) :
    Draws.May (fun _ => True) (takePeers peers number : ClientSelector randMax Peer Unit)
      (fun _ _ => True) := by
  refine (Draws.may_loop (J := fun _ _ => True) (advances_takeRound number)
    (fun l _ => l.1.length) ?_ (peers, 0))
  rintro ⟨left, selected⟩ size outPeers ⟨-, rfl⟩
  by_cases hlt : selected < number
  · by_cases hne : left = []
    · refine ⟨[], .inr (), outPeers, trivial, fun rest => ?_⟩
      rw [takeRound, if_pos hlt, hne]
      rfl
    · obtain ⟨peer, rest, hperm, hrun⟩ :=
        takeRound_draw hlt hne (0 : Fin (randMax + 1)) outPeers
      refine ⟨[0], .inl (rest, selected + 1), outPeers ++ [peer], ⟨trivial, ?_⟩, hrun⟩
      exact (Nat.lt_succ_self rest.length).trans_eq hperm.length_eq
  · refine ⟨[], .inr (), outPeers, trivial, fun rest => ?_⟩
    rw [takeRound, if_neg hlt]
    rfl

end Loops

/-! ## The peers that are appended -/

/-- Only candidates are appended, each at most once and no more than are asked for, and all of them if
there are fewer. -/
def Appends (candidates : List Peer) (numToSelect : Nat) (outPeers outPeers' : List Peer) : Prop :=
  ∃ appended, outPeers' = outPeers ++ appended ∧ appended ⊆ candidates ∧ appended.Nodup ∧
    appended.length ≤ numToSelect ∧
    (candidates.length < numToSelect → appended.Perm candidates)

variable (fp : Rounding) (behind : Behind) (address : Peer → IPPrefix)
  (client : P4PClientPeerSelectionLocation)

/-- Whatever `rand` returns, a result of zero means that the peers have been appended. -/
def Selects (randMax : Nat) (candidates : List Peer) (numToSelect : Nat) (outPeers : List Peer) :
    Prop :=
  ∀ rs : List (Fin (randMax + 1)),
    (client.selectPeers behind address candidates fp numToSelect outPeers rs).Holds
      (fun result outPeers' => result = 0 → Appends candidates numToSelect outPeers outPeers')
      (fun _ => False) (fun _ => True)

/-- There is no guidance for the selection. -/
def Refuses (candidates : List Peer) : Prop :=
  client.pidmap = none ∨ client.selfPid < 0 ∨ toInt client.intraIspPids ≤ client.selfPid ∨ candidates = []

/-- The candidates that are copied are not selected once more: none of them is external, and the limits
for the other groups that are not empty are zero. -/
structure NoneAgain (pidmap : ISPPIDMap) (candidates : List Peer) (numToSelect prefilled : Nat) :
    Prop where
  external : ∀ p ∈ candidates, pidOf behind address pidmap p ≠ client.selfPid →
    client.intraIsp (pidOf behind address pidmap p) = true
  intraPid : (∀ p ∈ candidates, pidOf behind address pidmap p ≠ client.selfPid) ∨
    client.intraPidShare fp numToSelect < 1
  intraIsp : (∀ p ∈ candidates, pidOf behind address pidmap p ≠ client.selfPid →
      client.intraIsp (pidOf behind address pidmap p) = false) ∨
    -1 < client.intraIspShare fp numToSelect prefilled (prefilled + candidates.length) ∧
      client.intraIspShare fp numToSelect prefilled (prefilled + candidates.length) < 1

/-- There are enough candidates, or none of them is selected once more. The size of `out_peers` fits
an `unsigned int`. -/
def Suffices (candidates : List Peer) (numToSelect size : Nat) : Prop :=
  client.Refuses candidates ∨ size < 2 ^ 32 ∧ (numToSelect ≤ candidates.length ∨
    ∃ pidmap, client.pidmap = some pidmap ∧
      client.NoneAgain fp behind address pidmap candidates numToSelect size)

/-- Percentages that the constructor accepts. -/
structure Accepted (intraPidPct intraIspPct : ℚ) : Prop where
  nonneg : 0 ≤ intraPidPct
  le : intraPidPct ≤ intraIspPct
  limit : intraIspPct ≤ 8917127262193582 / 2 ^ 53

/-- The percentages of an object that the constructor has accepted them for. -/
structure Configured : Prop where
  nonneg : 0 ≤ ofDouble client.intraPidPct
  le : ofDouble client.intraPidPct ≤ ofDouble client.intraIspPct
  limit : ofDouble client.intraIspPct ≤ 1

variable {fp behind address client}

theorem configured_lookUpHome (load : List Char → Option ISPPIDMap) (home : IPPrefix)
    (filenames : List (List Char)) (h : client.Configured) :
    (lookUpHome behind load home filenames client).Configured := by
  induction filenames with
  | nil => exact h
  | cons filename filenames ih =>
    rw [lookUpHome]
    split
    · exact ih
    dsimp only
    split
    · refine ⟨?_, ?_, h.limit⟩
      · change 0 ≤ ofDouble (if _ then client.intraIspPct else client.intraPidPct)
        split
        · exact h.nonneg.trans h.le
        · exact h.nonneg
      · change ofDouble (if _ then client.intraIspPct else client.intraPidPct) ≤
          ofDouble client.intraIspPct
        split
        · exact le_rfl
        · exact h.le
    · exact ih

/-- The constructor sets the percentages that it accepts. -/
theorem configured_new (readFromFile : List Char → Option (List (PID × List IPPrefix)))
    (memory : Double × Double) (home : IPPrefix) (filenames : List (List Char))
    {intraPidPct intraIspPct : ℚ} (h : Accepted intraPidPct intraIspPct) :
    (new behind readFromFile memory home filenames (.fin intraPidPct)
      (.fin intraIspPct)).Configured := by
  have hpos : Double.lt (.fin intraPidPct) 0 = false := by
    change decide (intraPidPct < ((0 : Nat) : ℚ)) = false
    simpa using h.nonneg
  have hle : Double.lt (.fin intraIspPct) (.fin intraPidPct) = false := by
    simpa [Double.lt] using h.le
  have hlimit : Double.lt (.fin (8917127262193582 / 2 ^ 53)) (.fin intraIspPct) = false := by
    simpa [Double.lt] using h.limit
  refine configured_lookUpHome _ home filenames ?_
  rw [hpos, hle, hlimit]
  exact ⟨h.nonneg, h.le, h.limit.trans (by norm_num)⟩

/-! ## The shares -/

section Shares

variable (client : P4PClientPeerSelectionLocation) (fp : Rounding) {numToSelect prefilled size : Nat}

/-- A percentage of less than an integer leaves a share of no more. -/
theorem intraIspShare_le {high : Nat}
    (hhigh : fp.mul numToSelect (ofDouble client.intraIspPct) ≤ high) (hlt : high < 2 ^ 32)
    (hprefilled : prefilled < 2 ^ 32) (hsize : size ≤ 2 ^ 33) :
    client.intraIspShare fp numToSelect prefilled size ≤ high + prefilled - size + 1 / 2 := by
  have hsum : fp.add (fp.mul numToSelect (ofDouble client.intraIspPct)) prefilled ≤
      ((high + prefilled : ℤ) : ℚ) :=
    fp.round_le_intCast (abs_le.2 ⟨by omega, by omega⟩) (by push_cast; linarith)
  have hdiff : fp.sub (fp.add (fp.mul numToSelect (ofDouble client.intraIspPct)) prefilled)
      (fp.round size) ≤ ((high + prefilled - size : ℤ) : ℚ) := by
    refine fp.round_le_intCast (abs_le.2 ⟨by omega, by omega⟩) ?_
    rw [fp.round_natCast (hsize.trans (by norm_num))]
    push_cast at hsum ⊢
    linarith
  have hshare : client.intraIspShare fp numToSelect prefilled size ≤
      ((2 * (high + prefilled - size) + 1 : ℤ) : ℚ) / 2 :=
    fp.round_le_half (abs_le.2 ⟨by omega, by omega⟩) (by push_cast at hdiff ⊢; linarith)
  push_cast at hshare
  linarith

theorem le_intraIspShare {low : Nat}
    (hlow : (low : ℚ) ≤ fp.mul numToSelect (ofDouble client.intraIspPct) + 1) (hlt : low < 2 ^ 32)
    (hprefilled : prefilled < 2 ^ 32) (hsize : size ≤ 2 ^ 33) :
    (low : ℚ) + prefilled - size - 1 / 2 ≤ client.intraIspShare fp numToSelect prefilled size := by
  have hsum : ((low + prefilled - 1 : ℤ) : ℚ) ≤
      fp.add (fp.mul numToSelect (ofDouble client.intraIspPct)) prefilled :=
    fp.intCast_le_round (abs_le.2 ⟨by omega, by omega⟩) (by push_cast; linarith)
  have hdiff : ((low + prefilled - 1 - size : ℤ) : ℚ) ≤
      fp.sub (fp.add (fp.mul numToSelect (ofDouble client.intraIspPct)) prefilled)
        (fp.round size) := by
    refine fp.intCast_le_round (abs_le.2 ⟨by omega, by omega⟩) ?_
    rw [fp.round_natCast (hsize.trans (by norm_num))]
    push_cast at hsum ⊢
    linarith
  have hshare : ((2 * (low + prefilled - 1 - size) + 1 : ℤ) : ℚ) / 2 ≤
      client.intraIspShare fp numToSelect prefilled size :=
    fp.half_le_round (abs_le.2 ⟨by omega, by omega⟩) (by push_cast at hdiff ⊢; linarith)
  push_cast at hshare
  linarith

variable {client}

/-- The percentages of the number that is asked for. -/
theorem Configured.shares (h : client.Configured) (hnum : numToSelect < 2 ^ 32) :
    0 ≤ fp.mul numToSelect (ofDouble client.intraPidPct) ∧
      fp.mul numToSelect (ofDouble client.intraPidPct) ≤
        fp.mul numToSelect (ofDouble client.intraIspPct) ∧
      fp.mul numToSelect (ofDouble client.intraIspPct) ≤ numToSelect := by
  have hpos : (0 : ℚ) ≤ numToSelect := Nat.cast_nonneg _
  refine ⟨fp.round_nonneg (mul_nonneg hpos h.nonneg), fp.mono (mul_le_mul_of_nonneg_left h.le hpos), ?_⟩
  have hround := fp.mono (mul_le_of_le_one_right hpos h.limit)
  rwa [fp.round_natCast (by omega)] at hround

theorem Configured.intraPidShare_mem (h : client.Configured) (hnum : numToSelect < 2 ^ 32) :
    1 / 2 ≤ client.intraPidShare fp numToSelect ∧
      client.intraPidShare fp numToSelect ≤ numToSelect + 1 / 2 := by
  obtain ⟨hnonneg, hle, hlimit⟩ := h.shares fp hnum
  exact ⟨fp.half_le_add hnonneg, fp.add_half_le (by omega) (hle.trans hlimit)⟩

theorem Configured.truncate_intraPidShare_le (h : client.Configured) (hnum : numToSelect < 2 ^ 32) :
    truncate (client.intraPidShare fp numToSelect) ≤ numToSelect := by
  obtain ⟨hlow, hhigh⟩ := h.intraPidShare_mem fp hnum
  exact truncate_le (by linarith) (by linarith) hnum

/-- The limit for the home PID is at most one above the percentage of the number. -/
theorem Configured.truncate_intraPidShare_le_mul_add (h : client.Configured)
    (hnum : numToSelect < 2 ^ 32) :
    (truncate (client.intraPidShare fp numToSelect) : ℚ) ≤
      fp.mul numToSelect (ofDouble client.intraPidPct) + 1 := by
  obtain ⟨hlow, hhigh⟩ := h.intraPidShare_mem fp hnum
  have hnum' : (numToSelect : ℚ) + 1 ≤ 2 ^ 32 := by exact_mod_cast hnum
  have hmax := h.truncate_intraPidShare_le fp hnum
  have hle : (truncate (client.intraPidShare fp numToSelect) : ℚ) ≤
      client.intraPidShare fp numToSelect := cast_truncate_le (by linarith) (by linarith)
  by_contra hlt
  -- the half below the limit is not rounded
  have hround : client.intraPidShare fp numToSelect ≤
      ((2 * truncate (client.intraPidShare fp numToSelect) - 1 : ℤ) : ℚ) / 2 :=
    fp.round_le_half (abs_le.2 ⟨by omega, by omega⟩) (by push_cast; linarith)
  push_cast at hround
  linarith

/-- What the home PID has given is missing in the limit for the home ISP. -/
theorem Configured.truncate_intraIspShare_le (h : client.Configured) (hnum : numToSelect < 2 ^ 32)
    (hprefilled : prefilled < 2 ^ 32) {taken : Nat}
    (htaken : taken ≤ truncate (client.intraPidShare fp numToSelect)) :
    truncate (client.intraIspShare fp numToSelect prefilled (prefilled + taken)) ≤
      numToSelect - taken := by
  obtain ⟨hnonneg, hle, hlimit⟩ := h.shares fp hnum
  have hmax := h.truncate_intraPidShare_le fp hnum
  have hnum' : (numToSelect : ℚ) + 1 ≤ 2 ^ 32 := by exact_mod_cast hnum
  have htaken' : (taken : ℚ) ≤ truncate (client.intraPidShare fp numToSelect) := by
    exact_mod_cast htaken
  have hpid := h.truncate_intraPidShare_le_mul_add fp hnum
  have hroom : prefilled + taken ≤ 2 ^ 33 := by omega
  have hlow := client.le_intraIspShare fp (by linarith) (by omega) hprefilled hroom
  have hhigh := client.intraIspShare_le fp hlimit hnum hprefilled hroom
  push_cast at hlow hhigh
  refine truncate_le_of_neg_one_lt (by linarith) ?_ (by omega)
  rw [Nat.cast_sub (by omega)]
  linarith

end Shares

/-! ## A whole selection -/

section Selection

variable {pidmap : ISPPIDMap} {candidates outPeers : List Peer} {numToSelect : Nat}

/-- `out_peers` when the loops start. -/
def copied (candidates : List Peer) (numToSelect : Nat) (outPeers : List Peer) : List Peer :=
  if candidates.length < numToSelect then
    outPeers.take (toUnsigned outPeers.length) ++ candidates
  else outPeers

/-- What the loops take out of the groups, where `out_peers` has this size when they start. -/
structure Takes (fp : Rounding) (behind : Behind) (address : Peer → IPPrefix)
    (client : P4PClientPeerSelectionLocation) (pidmap : ISPPIDMap) (candidates : List Peer)
    (numToSelect prefilled size : Nat) (near inner outer : List Peer) : Prop where
  near_subperm : near.Subperm (intraPidPeers behind address client pidmap candidates)
  inner_subperm : inner.Subperm (intraIspPeers behind address client pidmap candidates)
  outer_subperm : outer.Subperm (externalPeers behind address client pidmap candidates)
  near_length : near.length =
    min (truncate (client.intraPidShare fp numToSelect))
      (intraPidPeers behind address client pidmap candidates).length
  inner_length : inner.length =
    min (truncate (client.intraIspShare fp numToSelect prefilled (size + near.length)))
      (intraIspPeers behind address client pidmap candidates).length
  outer_length : outer.length =
    min (toUnsigned ((toUnsigned (numToSelect + prefilled) : Int) -
        (size + near.length + inner.length : Nat)))
      (externalPeers behind address client pidmap candidates).length

theorem copyCandidates_spec (candidates : List Peer) (numToSelect : Nat) (outPeers : List Peer)
    (rs : List (Fin (randMax + 1))) :
    copyCandidates candidates numToSelect (toUnsigned outPeers.length) outPeers rs =
      .returned () (copied candidates numToSelect outPeers) rs := by
  unfold copyCandidates copied
  split <;> rfl

theorem selectPeers_refuses (h : client.Refuses candidates) (numToSelect : Nat)
    (outPeers : List Peer) (rs : List (Fin (randMax + 1))) :
    client.selectPeers behind address candidates fp numToSelect outPeers rs =
      .returned errGuidanceUnavailable outPeers rs := by
  unfold selectPeers
  cases hpidmap : client.pidmap with
  | none => rfl
  | some pidmap =>
    have hguard : client.selfPid < 0 ∨ toInt client.intraIspPids ≤ client.selfPid ∨
        candidates.isEmpty := by
      rw [List.isEmpty_iff]
      refine h.resolve_left ?_
      rw [hpidmap]
      exact nofun
    dsimp only
    rw [if_pos hguard]
    rfl

theorem selectPeers_spec (fp : Rounding) (behind : Behind) (address : Peer → IPPrefix)
    (hpidmap : client.pidmap = some pidmap)
    (hrefuses : ¬ client.Refuses candidates) (numToSelect : Nat) (outPeers : List Peer)
    (rs : List (Fin (randMax + 1))) :
    (client.selectPeers behind address candidates fp numToSelect outPeers rs).Holds
      (fun result outPeers' => result = 0 ∧ ∃ near inner outer,
        outPeers' = copied candidates numToSelect outPeers ++ near ++ inner ++ outer ∧
        Takes fp behind address client pidmap candidates numToSelect (toUnsigned outPeers.length)
          (copied candidates numToSelect outPeers).length near inner outer)
      (fun _ => False) (fun _ => True) := by
  have hguard : ¬ (client.selfPid < 0 ∨ toInt client.intraIspPids ≤ client.selfPid ∨
      candidates.isEmpty) := by
    rw [List.isEmpty_iff]
    exact fun h => hrefuses (.inr h)
  unfold selectPeers
  rw [hpidmap]
  dsimp only
  rw [if_neg hguard, Draws.bind_apply, Draws.get, Drawn.returned_andThen, Draws.bind_apply,
    copyCandidates_spec, Drawn.returned_andThen]
  refine Draws.holds_bind (takePeers_spec _ _ _ rs) ?_
  rintro _ _ rs ⟨near, rfl, hnear, hnear_length⟩
  rw [Draws.bind_apply, Draws.get, Drawn.returned_andThen, List.length_append]
  refine Draws.holds_bind (takePeers_spec _ _ _ rs) ?_
  rintro _ _ rs ⟨inner, rfl, hinner, hinner_length⟩
  rw [Draws.bind_apply, Draws.get, Drawn.returned_andThen, List.length_append, List.length_append]
  refine Draws.holds_bind (takePeers_spec _ _ _ rs) ?_
  rintro _ _ rs ⟨outer, rfl, houter, houter_length⟩
  exact ⟨rfl, near, inner, outer, rfl, hnear, hinner, houter, hnear_length, hinner_length,
    houter_length⟩

/-- There are results of `rand` with which the selection comes to its end. -/
theorem exists_selectPeers (randMax : Nat) (fp : Rounding) (behind : Behind) (address : Peer → IPPrefix)
    (hpidmap : client.pidmap = some pidmap) (candidates : List Peer) (numToSelect : Nat)
    (outPeers : List Peer) :
    ∃ (rs rest : List (Fin (randMax + 1))) (result : Int) (outPeers' : List Peer),
      client.selectPeers behind address candidates fp numToSelect outPeers rs =
        .returned result outPeers' rest := by
  have hmay : Draws.May (fun _ => True)
      (client.selectPeers behind address candidates fp numToSelect : ClientSelector randMax Peer Int)
      (fun _ _ => True) := by
    unfold selectPeers
    rw [hpidmap]
    dsimp only
    split
    · exact Draws.may_pure fun _ => id
    · refine (Draws.may_get (Q := fun _ _ => True) fun _ => id).bind fun outPeers => ?_
      refine Draws.May.bind (M := fun _ _ => True) ?_ fun _ => ?_
      · unfold copyCandidates
        split
        · exact Draws.may_modify fun _ => id
        · exact Draws.may_pure fun _ => id
      refine (may_takePeers _ _).bind fun _ => ?_
      refine (Draws.may_get (Q := fun _ _ => True) fun _ => id).bind fun size => ?_
      refine (may_takePeers _ _).bind fun _ => ?_
      refine (Draws.may_get (Q := fun _ _ => True) fun _ => id).bind fun size => ?_
      exact (may_takePeers _ _).bind fun _ => Draws.may_pure fun _ => id
  obtain ⟨rs, result, outPeers', -, hrun⟩ := hmay outPeers trivial
  exact ⟨rs ++ [], [], result, outPeers', hrun []⟩

/-- The groups are the candidates. -/
theorem groups_perm (behind : Behind) (address : Peer → IPPrefix)
    (client : P4PClientPeerSelectionLocation) (pidmap : ISPPIDMap) (candidates : List Peer) :
    (intraPidPeers behind address client pidmap candidates ++
      (intraIspPeers behind address client pidmap candidates ++
        externalPeers behind address client pidmap candidates)).Perm candidates := by
  let others := candidates.filter fun p => !decide (pidOf behind address pidmap p = client.selfPid)
  have hinner : intraIspPeers behind address client pidmap candidates =
      others.filter fun p => client.intraIsp (pidOf behind address pidmap p) := by
    rw [List.filter_filter]
    refine List.filter_congr fun p _ => ?_
    simp [Bool.and_comm]
  have houter : externalPeers behind address client pidmap candidates =
      others.filter fun p => !client.intraIsp (pidOf behind address pidmap p) := by
    rw [List.filter_filter]
    refine List.filter_congr fun p _ => ?_
    simp [Bool.and_comm]
  rw [hinner, houter]
  exact (List.Perm.append_left _ (List.filter_append_perm _ others)).trans
    (List.filter_append_perm _ candidates)

namespace Takes

variable {prefilled size : Nat} {near inner outer : List Peer}

/-- Each candidate is taken at most once. -/
theorem subperm (h : Takes fp behind address client pidmap candidates numToSelect prefilled size near
    inner outer) : (near ++ (inner ++ outer)).Subperm candidates :=
  (h.near_subperm.append (h.inner_subperm.append h.outer_subperm)).trans
    (groups_perm behind address client pidmap candidates).subperm

/-- The limits of the loops add up. -/
theorem length_le (h : Takes fp behind address client pidmap candidates numToSelect prefilled size near
    inner outer) (hclient : client.Configured) (hnum : numToSelect < 2 ^ 32)
    (hprefilled : prefilled = size) (hsize : size < 2 ^ 32) :
    (near ++ (inner ++ outer)).length ≤ numToSelect := by
  subst hprefilled
  have hnear : near.length ≤ numToSelect :=
    (h.near_length.trans_le (min_le_left _ _)).trans (hclient.truncate_intraPidShare_le fp hnum)
  have hinner : inner.length ≤ numToSelect - near.length :=
    (h.inner_length.trans_le (min_le_left _ _)).trans
      (hclient.truncate_intraIspShare_le fp hnum hsize
        (h.near_length.trans_le (min_le_left _ _)))
  have houter : outer.length ≤ toUnsigned ((toUnsigned (numToSelect + prefilled) : Int) -
      (prefilled + near.length + inner.length : Nat)) :=
    h.outer_length.trans_le (min_le_left _ _)
  have hrest : toUnsigned ((toUnsigned (numToSelect + prefilled) : Int) -
      (prefilled + near.length + inner.length : Nat)) =
      numToSelect - (near.length + inner.length) := by
    unfold toUnsigned
    omega
  rw [List.length_append, List.length_append]
  omega

theorem intraPidPeers_eq_nil_iff : intraPidPeers behind address client pidmap candidates = [] ↔
    ∀ p ∈ candidates, pidOf behind address pidmap p ≠ client.selfPid := by
  simp [intraPidPeers, List.filter_eq_nil_iff]

theorem intraIspPeers_eq_nil_iff : intraIspPeers behind address client pidmap candidates = [] ↔
    ∀ p ∈ candidates, pidOf behind address pidmap p ≠ client.selfPid →
      client.intraIsp (pidOf behind address pidmap p) = false := by
  simp [intraIspPeers, List.filter_eq_nil_iff]

theorem externalPeers_eq_nil_iff : externalPeers behind address client pidmap candidates = [] ↔
    ∀ p ∈ candidates, pidOf behind address pidmap p ≠ client.selfPid →
      client.intraIsp (pidOf behind address pidmap p) = true := by
  simp [externalPeers, List.filter_eq_nil_iff]

theorem eq_nil_iff_of_min {l group : List Peer} {limit : Nat}
    (hlength : l.length = min limit group.length) : l = [] ↔ group = [] ∨ limit = 0 := by
  rw [← List.length_eq_zero_iff, hlength, ← List.length_eq_zero_iff (l := group)]
  omega

/-- After all candidates have been copied the loops take none again exactly if this is so. -/
theorem eq_nil_iff (h : Takes fp behind address client pidmap candidates numToSelect prefilled size near
    inner outer) (hclient : client.Configured) (hnum : numToSelect < 2 ^ 32)
    (hprefilled : prefilled < 2 ^ 32) (hsize : size = prefilled + candidates.length)
    (hfew : candidates.length < numToSelect) :
    near ++ (inner ++ outer) = [] ↔
      client.NoneAgain fp behind address pidmap candidates numToSelect prefilled := by
  have hnum' : (numToSelect : ℚ) + 1 ≤ 2 ^ 32 := by exact_mod_cast hnum
  have hfew' : (candidates.length : ℚ) < numToSelect := by exact_mod_cast hfew
  have hnear : near = [] ↔ (∀ p ∈ candidates, pidOf behind address pidmap p ≠ client.selfPid) ∨
      client.intraPidShare fp numToSelect < 1 := by
    obtain ⟨hlow, hhigh⟩ := hclient.intraPidShare_mem fp hnum
    rw [eq_nil_iff_of_min h.near_length, intraPidPeers_eq_nil_iff,
      truncate_eq_zero_iff (by linarith) (by linarith)]
    exact or_congr_right (and_iff_right (by linarith))
  have hinner : near = [] → (inner = [] ↔
      (∀ p ∈ candidates, pidOf behind address pidmap p ≠ client.selfPid →
        client.intraIsp (pidOf behind address pidmap p) = false) ∨
      -1 < client.intraIspShare fp numToSelect prefilled (prefilled + candidates.length) ∧
        client.intraIspShare fp numToSelect prefilled (prefilled + candidates.length) < 1) := by
    rintro rfl
    obtain ⟨hnonneg, hle, hlimit⟩ := hclient.shares fp hnum
    have hroom : prefilled + candidates.length ≤ 2 ^ 33 := by omega
    have hlow : ((0 : Nat) : ℚ) ≤ fp.mul numToSelect (ofDouble client.intraIspPct) + 1 := by
      rw [Nat.cast_zero]
      linarith
    have hlow := client.le_intraIspShare fp hlow (by omega) hprefilled hroom
    have hhigh := client.intraIspShare_le fp hlimit hnum hprefilled hroom
    push_cast at hlow hhigh
    rw [eq_nil_iff_of_min h.inner_length, intraIspPeers_eq_nil_iff, hsize, List.length_nil,
      Nat.add_zero, truncate_eq_zero_iff (by linarith) (by linarith)]
  have houter : near = [] → inner = [] → (outer = [] ↔
      ∀ p ∈ candidates, pidOf behind address pidmap p ≠ client.selfPid →
        client.intraIsp (pidOf behind address pidmap p) = true) := by
    rintro rfl rfl
    -- as many as are missing are still asked for
    have hmissing : toUnsigned ((toUnsigned (numToSelect + prefilled) : Int) -
        (size + ([] : List Peer).length + ([] : List Peer).length : Nat)) =
        numToSelect - candidates.length := by
      unfold toUnsigned
      rw [List.length_nil]
      omega
    rw [eq_nil_iff_of_min h.outer_length, externalPeers_eq_nil_iff, hmissing]
    exact or_iff_left (by omega)
  rw [List.append_eq_nil_iff, List.append_eq_nil_iff]
  constructor
  · rintro ⟨hn, hi, ho⟩
    exact ⟨(houter hn hi).1 ho, hnear.1 hn, (hinner hn).1 hi⟩
  · intro hnone
    have hn := hnear.2 hnone.intraPid
    have hi := (hinner hn).2 hnone.intraIsp
    exact ⟨hn, hi, (houter hn hi).2 hnone.external⟩

end Takes

/-! ## The condition -/

theorem copied_few (hsize : outPeers.length < 2 ^ 32) (hfew : candidates.length < numToSelect) :
    copied candidates numToSelect outPeers = outPeers ++ candidates := by
  rw [copied, if_pos hfew, toUnsigned_natCast hsize, List.take_length]

theorem selects_of_suffices (hclient : client.Configured) (hnodup : candidates.Nodup)
    (hnum : numToSelect < 2 ^ 32)
    (hsuffices : client.Suffices fp behind address candidates numToSelect outPeers.length) :
    client.Selects fp behind address randMax candidates numToSelect outPeers := by
  intro rs
  by_cases hrefuses : client.Refuses candidates
  · rw [selectPeers_refuses hrefuses]
    exact fun h => absurd h (by decide)
  obtain ⟨hsize, hcond⟩ := hsuffices.resolve_left hrefuses
  obtain ⟨pidmap, hpidmap⟩ := Option.ne_none_iff_exists'.1 fun h => hrefuses (.inl h)
  refine (selectPeers_spec fp behind address hpidmap hrefuses numToSelect outPeers rs).imp ?_
    (fun _ => id) fun _ => id
  rintro result outPeers' ⟨-, near, inner, outer, rfl, htakes⟩ -
  have hsub := htakes.subperm
  have hprefilled : toUnsigned outPeers.length = outPeers.length := toUnsigned_natCast hsize
  rw [hprefilled] at htakes
  by_cases hfew : candidates.length < numToSelect
  · rw [copied_few hsize hfew] at htakes ⊢
    obtain ⟨pidmap', hpidmap', hnone⟩ := hcond.resolve_left (Nat.not_le_of_lt hfew)
    obtain rfl := Option.some.inj (hpidmap.symm.trans hpidmap')
    have hnil := (htakes.eq_nil_iff hclient hnum hsize (List.length_append ..) hfew).2 hnone
    refine ⟨candidates, ?_, List.Subset.refl _, hnodup, hfew.le, fun _ => .refl _⟩
    rw [List.append_assoc, List.append_assoc, hnil, List.append_nil]
  · rw [copied, if_neg hfew] at htakes ⊢
    refine ⟨near ++ (inner ++ outer), ?_, hsub.subset, ?_, ?_, fun h => absurd h hfew⟩
    · rw [List.append_assoc, List.append_assoc]
    · obtain ⟨l, hperm, hsublist⟩ := hsub
      exact hperm.nodup_iff.1 (hnodup.sublist hsublist)
    · exact htakes.length_le hclient hnum rfl hsize

theorem suffices_of_selects (hclient : client.Configured)
    (hnum : numToSelect < 2 ^ 32) (hsize : outPeers.length < 2 ^ 32)
    (hselects : client.Selects fp behind address randMax candidates numToSelect outPeers) :
    client.Suffices fp behind address candidates numToSelect outPeers.length := by
  by_cases hrefuses : client.Refuses candidates
  · exact .inl hrefuses
  refine .inr ⟨hsize, or_iff_not_imp_left.2 fun hmany => ?_⟩
  have hfew := Nat.lt_of_not_le hmany
  obtain ⟨pidmap, hpidmap⟩ := Option.ne_none_iff_exists'.1 fun h => hrefuses (.inl h)
  obtain ⟨rs, rest, result, outPeers', hrun⟩ :=
    exists_selectPeers randMax fp behind address hpidmap candidates numToSelect outPeers
  have hspec := selectPeers_spec fp behind address hpidmap hrefuses numToSelect outPeers rs
  have happends := hselects rs
  rw [hrun] at hspec happends
  obtain ⟨rfl, near, inner, outer, rfl, htakes⟩ := hspec
  obtain ⟨appended, happended, -, -, -, hall⟩ := happends rfl
  have hprefilled : toUnsigned outPeers.length = outPeers.length := toUnsigned_natCast hsize
  rw [copied_few hsize hfew] at htakes happended
  rw [hprefilled] at htakes
  -- all candidates have been copied, and so nothing else is appended
  have hnil : near ++ (inner ++ outer) = [] := by
    have hlength := (congrArg List.length happended).symm
    rw [List.length_append, (hall hfew).length_eq] at hlength
    simp only [List.length_append] at hlength
    rw [← List.length_eq_zero_iff, List.length_append, List.length_append]
    omega
  exact ⟨pidmap, hpidmap, (htakes.eq_nil_iff hclient hnum hsize (List.length_append ..) hfew).1 hnil⟩

end Selection

/-- A selection works exactly if there are enough candidates, or none is selected once more. -/
theorem selects_iff (fp : Rounding) (behind : Behind)
    (readFromFile : List Char → Option (List (PID × List IPPrefix))) (memory : Double × Double)
    (home : IPPrefix) (filenames : List (List Char)) {intraPidPct intraIspPct : ℚ}
    (haccepted : Accepted intraPidPct intraIspPct) (address : Peer → IPPrefix)
    {candidates : List Peer} (hnodup : candidates.Nodup) {numToSelect : Nat}
    (hnum : numToSelect < 2 ^ 32) (outPeers : List Peer) (randMax : Nat) :
    let client :=
      new behind readFromFile memory home filenames (.fin intraPidPct) (.fin intraIspPct)
    (client.Suffices fp behind address candidates numToSelect outPeers.length →
      client.Selects fp behind address randMax candidates numToSelect outPeers) ∧
    (outPeers.length < 2 ^ 32 →
      client.Selects fp behind address randMax candidates numToSelect outPeers →
      client.Suffices fp behind address candidates numToSelect outPeers.length) := by
  intro client
  have hclient : client.Configured := configured_new readFromFile memory home filenames haccepted
  exact ⟨selects_of_suffices hclient hnodup hnum, suffices_of_selects hclient hnum⟩

/-! ## A small map -/

/-- A file with one PID, `10.0.0.0/8`. -/
def tenFile (_ : List Char) : Option (List (PID × List IPPrefix)) :=
  some [(⟨"isp", 1, false⟩, [.ofRaw .inet [false, false, false, false, true, false, true, false] 8])]

/-- A client with the address `10.0.0.0` and the default percentages, `0.7` and `0.9`. -/
def tenClient : P4PClientPeerSelectionLocation :=
  new (fun _ _ => false) tenFile (0, 0)
    (.ofRaw .inet [false, false, false, false, true, false, true, false] 32) [['a']]
    (.fin (6305039478318694 / 2 ^ 53)) (.fin (8106479329266893 / 2 ^ 53))

/-- All peers have the address `0.0.0.0`, which is in no PID. -/
def zeroAddress (_ : Nat) : IPPrefix := .ofRaw .inet [] 32

theorem accepted_default :
    Accepted (6305039478318694 / 2 ^ 53) (8106479329266893 / 2 ^ 53) where
  nonneg := by norm_num
  le := by norm_num
  limit := by norm_num

theorem selects_two : tenClient.Selects .double (fun _ _ => false) zeroAddress 32767 [0, 1] 2 [7] :=
  (selects_iff .double (fun _ _ => false) tenFile (0, 0) _ [['a']] accepted_default zeroAddress
    (by decide) (by decide) [7] 32767).1 (.inr ⟨by decide, .inl (by decide)⟩)

/-- The only candidate is copied, and selected once more as an external peer. -/
theorem not_selects_one : ¬ tenClient.Selects .double (fun _ _ => false) zeroAddress 32767 [0] 2 [] := by
  intro hselects
  have hrun : tenClient.selectPeers (fun _ _ => false) zeroAddress [0] .double 2 []
      [(0 : Fin (32767 + 1))] = .returned 0 [0, 0] [] := by decide +kernel
  have happends := hselects [0]
  rw [hrun] at happends
  obtain ⟨appended, happended, -, hnodup, -⟩ := happends rfl
  rw [List.nil_append] at happended
  rw [← happended] at hnodup
  exact absurd hnodup (by decide)

end Alto.App.P4PClientPeerSelectionLocation
